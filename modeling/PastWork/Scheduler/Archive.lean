import PastWork.Scheduler.Accounting

/-!
# The array of finished processes

`terminateAlg` receives a copy of each process when it ends.  Only
`proceedForward` writes to the array, at the position `completion`; the copy has
no links, and the process does not change any more, so that the copy stays equal
to it.
-/

namespace PastWork
namespace Scheduler

open Links

/-- The part of the state that only the end of a process changes. -/
def Files (T : Nat → Option Process) (n : Nat) (s : State) : Prop :=
  s.terminateAlg = T ∧ s.completion = n

section Untouched

variable {T : Nat → Option Process} {n : Nat}
variable {d : Policy} {file : RandomFile}

theorem qsetup_files
    (p : Ptr) :
    Stable (Files T n) (qsetup p) := by
  intro s s' h hs'
  unfold qsetup at hs'
  split at hs'
  · cases hs'
    exact h
  · obtain ⟨fresh, _, hs'⟩ := Result.bind_eq_ok hs'
    obtain ⟨back, _, hs'⟩ := Result.bind_eq_ok hs'
    cases hs'
    exact h

theorem dsetup_files
    {s s' : State} {p : Ptr}
    (h : Files T n s)
    (hs' : dsetup s = .ok (p, s')) :
    Files T n s' := by
  unfold dsetup at hs'
  split at hs'
  · cases hs'
    exact h
  · obtain ⟨rot, _, hs'⟩ := Result.bind_eq_ok hs'
    cases hs'
    simp only
    split <;> exact h

theorem insertB_files
    {s : State}
    (h : Files T n s)
    (p : Ptr) :
    Files T n (insertB p s) := by
  unfold insertB
  split <;> exact h

theorem removeB_files
    {s : State}
    (h : Files T n s) :
    Files T n (removeB s).2 := by
  unfold removeB
  split
  · exact h
  · simp only
    split <;> exact h

theorem releaseBlocked_files
    (presentN : Nat) :
    Stable (Files T n) (releaseBlocked presentN) := by
  intro s s' h hs'
  unfold releaseBlocked at hs'
  simp only at hs'
  have h₁ : Files T n (s.setCondition presentN .ready) := h
  generalize s.setCondition presentN .ready = s₁ at h₁ hs'
  obtain ⟨front, _, hs'⟩ := Result.bind_eq_ok hs'
  split at hs'
  · exact qsetup_files _ _ s' (removeB_files h₁) hs'
  · obtain ⟨back, _, hs'⟩ := Result.bind_eq_ok hs'
    split at hs'
    · obtain ⟨blockPrime, _, hs'⟩ := Result.bind_eq_ok hs'
      obtain ⟨extraN, _, hs'⟩ := Result.bind_eq_ok hs'
      refine qsetup_files _ _ s' ?_ hs'
      exact h₁
    · obtain ⟨blockPrime, _, hs'⟩ := Result.bind_eq_ok hs'
      obtain ⟨extraN, _, hs'⟩ := Result.bind_eq_ok hs'
      refine qsetup_files _ _ s' ?_ hs'
      exact h₁

theorem execxuteB_files :
    Stable (Files T n) execxuteB := by
  have hfrom : ∀ fuel p, Stable (Files T n) (execxuteBFrom fuel p) := by
    intro fuel
    induction fuel with
    | zero =>
        intro p s s' h hs'
        cases p with
        | none =>
            cases hs'
            exact h
        | some i => cases hs'
    | succ fuel ih =>
        intro p s s' h hs'
        cases p with
        | none =>
            cases hs'
            exact h
        | some i =>
            rw [execxuteBFrom] at hs'
            split at hs'
            · obtain ⟨s₁, hs₁, hs'⟩ := Result.bind_eq_ok hs'
              exact ih _ s₁ s' (releaseBlocked_files i s s₁ h hs₁) hs'
            · exact ih _ s s' h hs'
  intro s s' h hs'
  unfold execxuteB at hs'
  split at hs'
  · cases hs'
    exact h
  · exact hfrom _ _ s s' h hs'

theorem creation_files :
    Stable (Files T n) creation := by
  intro s s' h hs'
  refine Stable.foldlM (P := Files T n) (f := creationStep)
    (l := List.range s.countPrime) ?_ s s' h hs'
  intro i _ s₁ s₂ h₁ hs₂
  simp only [creationStep] at hs₂
  split at hs₂
  · refine qsetup_files _ _ s₂ ?_ hs₂
    split <;> exact h₁
  · cases hs₂
    exact h₁

theorem takeReady_files
    {s s' : State} {quickPrime loadedPrime : Nat}
    (h : Files T n s)
    (hs' : takeReady quickPrime s = .ok (loadedPrime, s')) :
    Files T n s' := by
  unfold takeReady at hs'
  obtain ⟨front, _, hs'⟩ := Result.bind_eq_ok hs'
  split at hs'
  · obtain ⟨⟨rot, s₁⟩, hs₁, hs'⟩ := Result.bind_eq_ok hs'
    obtain ⟨p, _, hs'⟩ := Result.bind_eq_ok hs'
    cases hs'
    exact dsetup_files h hs₁
  · obtain ⟨back, _, hs'⟩ := Result.bind_eq_ok hs'
    split at hs'
    · obtain ⟨node, _, hs'⟩ := Result.bind_eq_ok hs'
      obtain ⟨p, _, hs'⟩ := Result.bind_eq_ok hs'
      cases hs'
      exact h
    · obtain ⟨node, _, hs'⟩ := Result.bind_eq_ok hs'
      obtain ⟨p, _, hs'⟩ := Result.bind_eq_ok hs'
      cases hs'
      exact h

theorem dispatch_files :
    Stable (Files T n) (dispatch d file) := by
  intro s s' h hs'
  unfold dispatch at hs'
  split_ifs at hs'
  · obtain ⟨front, _, hs'⟩ := Result.bind_eq_ok hs'
    obtain ⟨quickPrime, _, hs'⟩ := Result.bind_eq_ok hs'
    obtain ⟨⟨loadedPrime, s₁⟩, hs₁, hs'⟩ := Result.bind_eq_ok hs'
    have h₁ := takeReady_files h hs₁
    obtain ⟨burst, _, hs'⟩ := Result.bind_eq_ok hs'
    cases hs'
    exact h₁
  · obtain ⟨⟨rot, s₁⟩, hs₁, hs'⟩ := Result.bind_eq_ok hs'
    obtain ⟨p, _, hs'⟩ := Result.bind_eq_ok hs'
    obtain ⟨burst, _, hs'⟩ := Result.bind_eq_ok hs'
    have h₁ := dsetup_files h hs₁
    simp only at hs'
    split at hs' <;> cases hs' <;> exact h₁
  · cases hs'
    exact h

/-- Without pausing, `executeR` is the dispatch in the simulator too. -/
theorem executeR_files
    (hd : d ≠ .block) :
    Stable (Files T n) (executeR d file) := by
  intro s s' h hs'
  have hothers : ∀ s, pauseOthers d s = .ok s := fun s =>
    if_neg (fun hc => hd hc.2.2.2)
  have hresume : ∀ s, resumePaused d s = .ok s := fun s =>
    if_neg (fun hc => hd hc.2.1)
  have hready : ∀ s, pauseReady d s = .ok s := fun s =>
    if_neg (fun hc => hd hc.1)
  simp only [executeR, hothers, hresume, hready, Result.ok_bind] at hs'
  obtain ⟨s₁, hs₁, hs'⟩ := Result.bind_eq_ok hs'
  cases hs'
  exact dispatch_files s s' h hs₁

/-- What comes after `proceedForward` in a cycle leaves the array alone. -/
theorem rest_files
    {s s₁ s' : State}
    (hd : d ≠ .block)
    (hs₁ : proceedForward d s = .ok s₁)
    (hs' : datapoint d file s = .ok s') :
    s'.terminateAlg = s₁.terminateAlg ∧ s'.completion = s₁.completion := by
  unfold datapoint at hs'
  rw [hs₁, Result.ok_bind] at hs'
  obtain ⟨s₂, hs₂, hs'⟩ := Result.bind_eq_ok hs'
  have h₂ : Files s₁.terminateAlg s₁.completion s₂ :=
    execxuteB_files s₁ s₂ ⟨rfl, rfl⟩ hs₂
  have hlast : ∀ s₃, Files s₁.terminateAlg s₁.completion s₃ →
      ((do
        let s ← executeR d file s₃
        let s := countdown d s
        .ok { s with present := incr s.present }) : Result State) = .ok s' →
      Files s₁.terminateAlg s₁.completion s' := by
    intro s₃ h₃ hs'
    obtain ⟨s₄, hs₄, hs'⟩ := Result.bind_eq_ok hs'
    have h₄ := executeR_files hd s₃ s₄ h₃ hs₄
    cases hs'
    exact h₄
  split at hs'
  · obtain ⟨s₃, hs₃, hs'⟩ := Result.bind_eq_ok hs'
    exact hlast s₃ (creation_files s₂ s₃ h₂ hs₃) hs'
  · exact hlast s₂ h₂ hs'

end Untouched

section Links

variable {d : Policy} {file : RandomFile} {s s₁ s' : State} {a : Machine}

/-- A process that is in no queue has no links. -/
theorem Threaded.unlink_eq
    {ready pause block : List Nat} {p : Nat}
    (h : Threaded s ready pause block)
    (hwaiting : p ∉ ready ++ pause)
    (hblock : p ∉ block) :
    (s.Prime p).unlink = s.Prime p := by
  rw [List.mem_append, not_or] at hwaiting
  have hfresh : (s.Prime p).freshPrime = none :=
    h.readyLinks.off p hwaiting.1
  have hpush : (s.Prime p).pushPrimeForward = none :=
    h.pauseLinks.off p hwaiting.2
  have hblocked : (s.Prime p).pushBlock = none :=
    h.blockLinks.off p hblock
  generalize s.Prime p = q at hfresh hpush hblocked ⊢
  cases q
  simp_all [Process.unlink]

theorem Represents.unlink_eq
    {p : Nat}
    (h : Represents s a)
    (hq : a.Queued)
    (hready : (a.Prime p).condition ≠ .ready)
    (hblocked : (a.Prime p).condition ≠ .blocked) :
    (s.Prime p).unlink = s.Prime p :=
  h.threaded.unlink_eq
    (fun hmem => hready (hq.waiting_spec p hmem).2)
    (fun hmem => hblocked ((hq.block_iff p).mp hmem).2)

/-- The entries that have been written carry no links. -/
def Bare (s : State) : Prop :=
  ∀ k < s.completion, ∀ q, s.terminateAlg k = some q → q.unlink = q

theorem Bare.of_files
    (h : Bare s)
    (hs' : Files s.terminateAlg s.completion s') :
    Bare s' := by
  intro k hk q hq
  rw [hs'.2] at hk
  rw [hs'.1] at hq
  exact h k hk q hq

/-- The entry of a process that ends is its copy without links. -/
theorem Bare.writeTerminated
    {p : Nat}
    (h : Bare s)
    (hp : (s.Prime p).unlink = s.Prime p)
    (hs' : writeTerminated p s = .ok s') :
    Bare { s' with completion := incr s'.completion } := by
  unfold Scheduler.writeTerminated at hs'
  split at hs'
  · cases hs'
    intro k hk q hq
    have hle : k < s.completion + 1 :=
      lt_of_lt_of_le hk (Nat.mod_le _ _)
    simp only at hq
    split at hq
    · cases hq
      exact hp
    · exact h k (by omega) q hq
  · cases hs'

theorem proceedForward_bare
    (h : Represents s a)
    (hq : a.Queued)
    (hbare : Bare s)
    (hs₁ : proceedForward d s = .ok s₁) :
    Bare s₁ := by
  unfold proceedForward at hs₁
  cases hsel : s.selection with
  | none =>
      rw [hsel] at hs₁
      cases hs₁
      exact hbare
  | some p =>
      rw [hsel] at hs₁
      simp only at hs₁
      have hcond : (a.Prime p).condition = .running :=
        ((hq.selection_iff p).mp (h.selection ▸ hsel)).2
      have hp : (s.Prime p).unlink = s.Prime p :=
        h.unlink_eq hq (by simp [hcond]) (by simp [hcond])
      have hcharge : (s.Prime p).chargeBurst.unlink =
          (s.Prime p).chargeBurst := by
        rw [chargeBurst_linkFree.unlink, hp]
      split at hs₁
      · obtain ⟨s₂, hs₂, hs₁⟩ := Result.bind_eq_ok hs₁
        cases hs₁
        have hended : Bare { s₂ with completion := incr s₂.completion } := by
          refine Bare.writeTerminated ?_ ?_ hs₂
          · exact hbare
          · simp only [State.modify, update_same]
            exact congrArg (fun q : Process => { q with
              condition := .terminated
              finishingTime := toInt32 s.present }) hcharge
        intro k hk q hentry
        split at hk <;> split at hentry <;> exact hended k hk q hentry
      · split at hs₁
        · cases hs₁
          have hfiles : Files s.terminateAlg s.completion
              (insertB (some p) ((s.modify p
                Process.chargeBurst).setCondition p .blocked)) :=
            insertB_files ⟨rfl, rfl⟩ _
          exact hbare.of_files hfiles
        · split at hs₁
          · obtain ⟨s₂, hs₂, hs₁⟩ := Result.bind_eq_ok hs₁
            cases hs₁
            have hfiles : Files s.terminateAlg s.completion s₂ := by
              refine qsetup_files (some p) _ s₂ ?_ hs₂
              exact ⟨rfl, rfl⟩
            exact hbare.of_files hfiles
          · cases hs₁
            exact hbare

theorem datapoint_bare
    (hd : d ≠ .block)
    (h : Represents s a)
    (hq : a.Queued)
    (hbare : Bare s)
    (hs' : datapoint d file s = .ok s') :
    Bare s' := by
  have hsplit := hs'
  unfold datapoint at hsplit
  obtain ⟨s₁, hs₁, _⟩ := Result.bind_eq_ok hsplit
  exact (proceedForward_bare h hq hbare hs₁).of_files
    (rest_files hd hs₁ hs')

end Links

namespace Process

/-- Nothing moves a terminated process. -/
theorem MovesTo.eq_of_terminated
    {d : Policy} {present : Nat} {q q' : Process}
    (h : MovesTo d present q q')
    (hcond : q.condition = .terminated) :
    q' = q := by
  refine h.preserves (P := fun p => p = q) ?_ rfl
  intro p p' hmove hp
  subst hp
  cases hmove <;> simp_all

theorem countdown_of_terminated
    {d : Policy} {q : Process}
    (hcond : q.condition = .terminated) :
    q.countdown d = q := by
  simp only [countdown, hcond]

end Process

namespace Machine

variable {d : Policy} {file : RandomFile} {a b : Machine} {t : Nat}

/-- The globals that only the end of a process and the timers write. -/
def Kept (a b : Machine) : Prop :=
  b.terminateAlg = a.terminateAlg ∧ b.completion = a.completion ∧
    b.totalTimeNumber = a.totalTimeNumber

theorem prepare_kept :
    Kept (a.proceedForward d) (a.prepare d) := by
  unfold prepare creation execxuteB
  split <;> split <;> exact ⟨rfl, rfl, rfl⟩

theorem dispatch_kept
    (hb : a.dispatch d file = some b) :
    Kept a b := by
  cases dispatch_cases hb with
  | busy | idle => exact ⟨rfl, rfl, rfl⟩
  | start =>
      unfold start
      simp only
      split <;> exact ⟨rfl, rfl, rfl⟩

/-- What comes after `proceedForward` in a cycle neither ends a process nor
changes one that has ended. -/
theorem Sound.ended
    (h : a.Sound t)
    (hd : d ≠ .block)
    (hb : a.datapoint d file = some b) :
    b.terminateAlg = (a.proceedForward d).terminateAlg ∧
      b.completion = (a.proceedForward d).completion ∧
      ∀ i < a.countPrime,
        ((a.proceedForward d).Prime i).condition = .terminated →
        b.Prime i = (a.proceedForward d).Prime i := by
  have hb' := hb
  rw [datapoint_eq_dispatch hd] at hb'
  obtain ⟨c, hc, rfl⟩ := Option.map_eq_some_iff.mp hb'
  have hkept := dispatch_kept hc
  obtain ⟨hfiles, hcompletion, _⟩ := prepare_kept (d := d) (a := a)
  refine ⟨hkept.1.trans hfiles, hkept.2.1.trans hcompletion, ?_⟩
  intro i hi hcond
  have h₁ := proceedForward_phase (d := d) h.queued
  have h₂ := execxuteB_phase (d := d) h₁.queued
  have hopen := Opened.of_phase h₂
    (creation_opened h₂.queued (h₂.arrived t (h₁.arrived t h.arrived))
      ((h₂.present.trans h₁.present).trans h.present_eq))
  have hexec : (a.prepare d).executeR d file =
      (a.prepare d).dispatch d file :=
    executeR_eq_dispatch hd
  rw [← hexec] at hc
  have hdone := hopen.phase (executeR_phase hopen.queued h.launchable hc)
  have hi₁ : i < (a.proceedForward d).countPrime := h₁.count.symm ▸ hi
  have hsame := (hdone.moves i hi₁).eq_of_terminated hcond
  rw [advance_Prime (hdone.count.symm ▸ hi₁), hsame]
  exact Process.countdown_of_terminated hcond

/-- The processes that have ended before cycle `t`, in the order in which they
did, are the entries of `terminateAlg`. -/
structure Filed (t : Nat) (a : Machine) (order : List Nat) : Prop where
  nodup : order.Nodup
  length_eq : order.length = a.completion
  terminated : ∀ i ∈ order,
    i < a.countPrime ∧ (a.Prime i).condition = .terminated
  entry : ∀ k i, order[k]? = some i → a.terminateAlg k = some (a.Prime i)
  sorted : order.Pairwise
    (fun i j => (a.Prime i).finishingTime < (a.Prime j).finishingTime)
  before : ∀ i ∈ order, (a.Prime i).finishingTime < t

/-- Entries stay when the processes that have ended do. -/
theorem Filed.congr
    {order : List Nat} {t' : Nat}
    (h : Filed t a order)
    (ht : t ≤ t')
    (hcount : b.countPrime = a.countPrime)
    (hfiles : b.terminateAlg = a.terminateAlg)
    (hcompletion : b.completion = a.completion)
    (hsame : ∀ i ∈ order, b.Prime i = a.Prime i) :
    Filed t' b order where
  nodup := h.nodup
  length_eq := h.length_eq.trans hcompletion.symm
  terminated := fun i hi => by
    rw [hcount, hsame i hi]
    exact h.terminated i hi
  entry := fun k i hk => by
    rw [hfiles, hsame i (List.mem_of_getElem? hk)]
    exact h.entry k i hk
  sorted := by
    refine h.sorted.imp_of_mem ?_
    intro i j hi hj hlt
    rwa [hsame i hi, hsame j hj]
  before := fun i hi => by
    rw [hsame i hi]
    have := h.before i hi
    omega

theorem terminate_finishingTime
    {p : Nat}
    (hpresent : a.present = t)
    (ht : t < 2 ^ 31) :
    ((a.terminate d p).Prime p).finishingTime = t := by
  simp only [Machine.terminate, modify, update_same, hpresent, toInt32,
    if_pos ht]

/-- The running process ends, with the entry at the position `completion`. -/
theorem Filed.terminate
    {order : List Nat} {p : Nat}
    (h : Filed t a order)
    (hq : a.Queued)
    (hsel : a.selection = some p)
    (hpresent : a.present = t)
    (ht : t < 2 ^ 31) :
    Filed (t + 1) (a.terminate d p) (order ++ [p]) := by
  have hm := hq.terminate d hsel
  have hfinish := terminate_finishingTime (d := d) (p := p) hpresent ht
  have hcompletion : a.completion < a.countPrime := by
    rw [hq.completion_eq]
    exact tally_lt hm.pos hm.old
  have hincr : (a.terminate d p).completion = a.completion + 1 := by
    rw [hm.completion, if_pos rfl, incr_eq]
    have := hq.fits
    omega
  have hp : p ∉ order := fun hmem => hm.old (h.terminated p hmem).2
  have hsame : ∀ i ∈ order, (a.terminate d p).Prime i = a.Prime i :=
    fun i hi => hm.same i (fun hip => hp (hip ▸ hi))
  refine ⟨?_, ?_, ?_, ?_, ?_, ?_⟩
  · exact h.nodup.append (List.nodup_singleton p) (by simpa using hp)
  · rw [List.length_append, h.length_eq, hincr]
    rfl
  · intro i hi
    rcases List.mem_append.mp hi with hi | hi
    · rw [hm.count, hsame i hi]
      exact h.terminated i hi
    · rw [List.mem_singleton.mp hi, hm.count]
      exact ⟨hm.pos, hm.condition⟩
  · intro k i hk
    rcases Nat.lt_or_ge k order.length with hlt | hge
    · rw [List.getElem?_append_left hlt] at hk
      have hne : k ≠ a.completion := by
        have := h.length_eq
        omega
      rw [hsame i (List.mem_of_getElem? hk)]
      exact (if_neg hne).trans (h.entry k i hk)
    · rw [List.getElem?_append_right hge, List.getElem?_singleton] at hk
      split at hk
      next hzero =>
        cases hk
        have hk : k = a.completion := by
          have := h.length_eq
          omega
        refine (if_pos hk).trans ?_
        simp only [Machine.terminate, modify, update_same]
      next => cases hk
  · rw [List.pairwise_append]
    refine ⟨?_, List.pairwise_singleton _ _, ?_⟩
    · refine h.sorted.imp_of_mem ?_
      intro i j hi hj hlt
      rwa [hsame i hi, hsame j hj]
    · intro i hi j hj
      rw [List.mem_singleton.mp hj, hfinish, hsame i hi]
      exact h.before i hi
  · intro i hi
    rcases List.mem_append.mp hi with hi | hi
    · rw [hsame i hi]
      have := h.before i hi
      omega
    · rw [List.mem_singleton.mp hi, hfinish]
      omega

/-- `proceedForward` writes the entry of a process that ends. -/
theorem Filed.proceedForward
    {order : List Nat}
    (h : Filed t a order)
    (hq : a.Queued)
    (hpresent : a.present = t)
    (ht : t < 2 ^ 31) :
    ∃ order', Filed (t + 1) (a.proceedForward d) order' ∧
      ((a.proceedForward d).completion ≠ a.completion →
        ∃ i ∈ order',
          ((a.proceedForward d).Prime i).finishingTime = t) := by
  have hstay : ∀ p, a.selection = some p → p ∉ order := by
    intro p hsel hmem
    have hrun := ((hq.selection_iff p).mp hsel).2
    rw [(h.terminated p hmem).2] at hrun
    cases hrun
  have hkeep : ∀ p, a.selection = some p → ∀ b : Machine,
      b.countPrime = a.countPrime → b.terminateAlg = a.terminateAlg →
      b.completion = a.completion → (∀ i, i ≠ p → b.Prime i = a.Prime i) →
      ∃ order', Filed (t + 1) b order' ∧
        (b.completion ≠ a.completion →
          ∃ i ∈ order', (b.Prime i).finishingTime = t) := by
    intro p hsel b hcount hfiles hcompletion hsame
    refine ⟨order, ?_, fun hne => absurd hcompletion hne⟩
    apply h.congr (Nat.le_succ t) hcount hfiles hcompletion
    intro i hi
    exact hsame i (fun hip => hstay p hsel (hip ▸ hi))
  cases hsel : a.selection with
  | none =>
      simp only [Machine.proceedForward, hsel]
      exact ⟨order, h.congr (Nat.le_succ t) rfl rfl rfl (fun _ _ => rfl),
        fun hne => absurd rfl hne⟩
  | some p =>
      simp only [Machine.proceedForward, hsel]
      split_ifs with hdone hburst hpreempt
      · exact ⟨order ++ [p], h.terminate hq hsel hpresent ht,
          fun _ => ⟨p, by simp, terminate_finishingTime hpresent ht⟩⟩
      · exact hkeep p hsel _ rfl rfl rfl (hq.blockRunning hsel).same
      · exact hkeep p hsel _ rfl rfl rfl (hq.preempt hsel).same
      · exact hkeep p hsel _ rfl rfl rfl (hq.keepRunning hsel).same

/-- A cycle in which `completion` changes files a process that ends in it. -/
theorem Filed.datapoint
    {order : List Nat}
    (h : Filed t a order)
    (hsound : a.Sound t)
    (hd : d ≠ .block)
    (ht : t < 2 ^ 31)
    (hb : a.datapoint d file = some b) :
    ∃ order', Filed (t + 1) b order' ∧
      (b.completion ≠ a.completion →
        ∃ i ∈ order', (b.Prime i).finishingTime = t) := by
  have hpresent : a.present = t := by
    rw [hsound.present_eq]
    exact Nat.mod_eq_of_lt (by omega)
  obtain ⟨hfiles, hcompletion, hrest⟩ := hsound.ended hd hb
  have hcount := (proceedForward_phase (d := d) hsound.queued).count
  obtain ⟨order', hfiled, hlast⟩ :=
    h.proceedForward (d := d) hsound.queued hpresent ht
  have hsame : ∀ i ∈ order',
      b.Prime i = (a.proceedForward d).Prime i := by
    intro i hi
    obtain ⟨hlt, hcond⟩ := hfiled.terminated i hi
    exact hrest i (hcount ▸ hlt) hcond
  refine ⟨order', ?_, ?_⟩
  · exact hfiled.congr le_rfl
      ((hsound.cycle hb).count.trans hcount.symm) hfiles hcompletion hsame
  · intro hne
    obtain ⟨i, hi, hfinish⟩ := hlast (hcompletion ▸ hne)
    exact ⟨i, hi, by rw [hsame i hi, hfinish]⟩

end Machine

end Scheduler
end PastWork
