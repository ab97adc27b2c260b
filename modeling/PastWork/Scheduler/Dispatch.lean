import PastWork.Scheduler.Refinement

/-!
# The simulator refines the machine: the dispatch and the whole cycle

`executeR` moves processes between the ready and the pause queue and starts the
next process.  Its pausing loops lose processes unless there is room: when the
pause queue is empty, at most two processes may be ready.  Under the other
policies these loops never run.
-/

namespace PastWork
namespace Scheduler

open Links

section Pausing

variable {d : Policy} {s : State} {a : Machine} {p : Nat}

/-- A pausing loop may start: its first insertion into an empty pause queue
loses no process. -/
def Machine.Roomy (a : Machine) : Prop :=
  a.pause = [] → a.ready.length ≤ 2

/-- One round of a pausing loop. -/
theorem Represents.pauseFront
    {rest : List Nat}
    (h : Represents s a)
    (hq : a.Queued)
    (hready : a.ready = p :: rest)
    (hsafe : a.pause = [] → rest.length ≤ 1) :
    ∃ s', Scheduler.pauseFront s = .ok s' ∧
      Represents s' { a with ready := rest, pause := a.pause ++ [p] } := by
  have hmem : p ∈ a.ready := by simp [hready]
  obtain ⟨hlt, hcond⟩ := hq.ready_spec hmem
  have hpause : p ∉ a.pause := fun hp =>
    (List.nodup_append.mp hq.waiting_nodup).2.2 p hmem p hp rfl
  have hlen : rest.length + 1 < 2 ^ 32 := by
    have hle := hq.length_lt hq.ready_nodup
      (fun i hi => (hq.ready_spec hi).1)
    rw [hready] at hle
    exact hle
  have hroom : a.pause.length + 1 < 2 ^ 32 := by
    have hnd : (p :: a.pause).Nodup :=
      List.nodup_cons.mpr ⟨hpause, hq.pause_nodup⟩
    have hle := hq.length_lt hnd (fun i hi => by
      rcases List.mem_cons.mp hi with rfl | hi
      · exact hlt
      · exact (hq.pause_spec hi).1)
    exact hle
  obtain ⟨s₁, hs₁, hthreaded₁, hglobals₁⟩ :=
    dsetup_spec (hready ▸ h.threaded) hlen
  have h₁ : Represents s₁ { a with ready := rest } :=
    ⟨hthreaded₁, hglobals₁.trans h.globals⟩
  have h₂ := h₁.setCondition_self hcond
  obtain ⟨s₃, hs₃, hthreaded₃, hglobals₃⟩ :=
    pauseQue_spec h₂.threaded hpause hroom hsafe
  refine ⟨s₃, ?_, hthreaded₃, hglobals₃.trans h₂.globals⟩
  simp only [Scheduler.pauseFront, hs₁, Result.ok_bind, deref_some]
  exact hs₃

/-- A pausing loop from its round `i` on moves half of the processes beyond
`i`, rounded up: each round lowers `placement` and raises `i`. -/
theorem Represents.pauseLoop
    {guard : State → Bool} {fuel i : Nat}
    (h : Represents s a)
    (hq : a.Queued)
    (hguard : ∀ s' : State, s'.selection = a.selection → guard s' = true)
    (hfuel : a.ready.length ≤ fuel + i)
    (hsafe : a.Roomy) :
    ∃ s', Scheduler.pauseLoop guard fuel i s = .ok s' ∧
      Represents s'
        { a with
          ready := a.ready.drop ((a.ready.length - i + 1) / 2)
          pause := a.pause ++
            a.ready.take ((a.ready.length - i + 1) / 2) } := by
  have hplace := h.threaded.placement_eq
  induction fuel generalizing i s a with
  | zero =>
      have hdone : ¬ i < s.placement := by omega
      have hhalf : (a.ready.length - i + 1) / 2 = 0 := by omega
      refine ⟨s, ?_, ?_⟩
      · rw [Scheduler.pauseLoop, if_neg hdone]
      · rw [hhalf, List.drop_zero, List.take_zero, List.append_nil]
        exact h
  | succ fuel ih =>
      by_cases hi : i < s.placement
      · obtain ⟨p, rest, hready⟩ : ∃ p rest, a.ready = p :: rest := by
          cases hr : a.ready with
          | nil => simp [hplace, hr] at hi
          | cons p rest => exact ⟨p, rest, rfl⟩
        have hlength : a.ready.length = rest.length + 1 := by
          rw [hready]
          rfl
        obtain ⟨s₁, hs₁, h₁⟩ := h.pauseFront hq hready (fun hp => by
          have := hsafe hp
          omega)
        have hq₁ : Machine.Queued
            { a with ready := rest, pause := a.pause ++ [p] } := by
          refine hq.permute rfl rfl rfl rfl rfl ?_
          show (rest ++ (a.pause ++ [p])).Perm (a.ready ++ a.pause)
          rw [hready, ← List.append_assoc]
          exact List.perm_append_singleton p (rest ++ a.pause)
        obtain ⟨s', hs', h'⟩ := ih (i := i + 1) h₁ hq₁ hguard
          (by show rest.length ≤ fuel + (i + 1); omega)
          (fun hp => by simp at hp)
          h₁.threaded.placement_eq
        have hhalf : (a.ready.length - i + 1) / 2 =
            (rest.length - (i + 1) + 1) / 2 + 1 := by
          omega
        refine ⟨s', ?_, ?_⟩
        · simp only [Scheduler.pauseLoop, hi, if_true, hguard s h.selection,
            hs₁, Result.ok_bind]
          exact hs'
        · rw [hhalf, hready, List.drop_succ_cons, List.take_succ_cons]
          simpa [List.append_assoc] using h'
      · have hhalf : (a.ready.length - i + 1) / 2 = 0 := by omega
        refine ⟨s, ?_, ?_⟩
        · rw [Scheduler.pauseLoop, if_neg hi]
        · rw [hhalf, List.drop_zero, List.take_zero, List.append_nil]
          exact h

theorem Represents.placement_ne_zero
    (h : Represents s a) :
    s.placement ≠ 0 ↔ a.ready ≠ [] := by
  rw [h.threaded.placement_eq]
  simp

theorem Represents.pauseOthers
    (h : Represents s a)
    (hq : a.Queued)
    (hsafe : a.OthersReady d → a.Roomy) :
    ∃ s', Scheduler.pauseOthers d s = .ok s' ∧
      Represents s' (a.pauseOthers d) := by
  have hcond : (s.namelessOp ≠ none ∧ s.placement ≠ 0 ∧
      s.Afront ≠ s.namelessOp ∧ d = .block) ↔ a.OthersReady d := by
    rw [h.placement_ne_zero, h.namelessOp, h.threaded.readyLinks.front_eq]
    rfl
  unfold Scheduler.pauseOthers Machine.pauseOthers
  by_cases hothers : a.OthersReady d
  · rw [if_pos (hcond.mpr hothers), if_pos hothers]
    exact h.pauseLoop (i := 0) hq (fun _ _ => rfl)
      (by rw [h.threaded.placement_eq]; omega) (hsafe hothers)
  · rw [if_neg (fun hc => hothers (hcond.mp hc)), if_neg hothers]
    exact ⟨s, rfl, h⟩

theorem Represents.pauseReady
    (h : Represents s a)
    (hq : a.Queued)
    (hsafe : a.RestReady d → a.Roomy) :
    ∃ s', Scheduler.pauseReady d s = .ok s' ∧
      Represents s' (a.pauseReady d) := by
  unfold Scheduler.pauseReady Machine.pauseReady
  by_cases hrest : a.RestReady d
  · obtain ⟨hd, hready, hsel⟩ := hrest
    rw [if_pos ⟨hd, h.placement_ne_zero.mpr hready⟩, if_pos ⟨hd, hready, hsel⟩]
    apply h.pauseLoop (i := 0) hq _ (by rw [h.threaded.placement_eq]; omega)
      (hsafe ⟨hd, hready, hsel⟩)
    intro s' hs'
    rw [hs']
    exact Option.isSome_iff_ne_none.mpr hsel
  · rw [if_neg hrest]
    split
    next hc =>
        -- no process runs, so the loop only counts
        have hfree : a.selection = none := by
          by_contra hsel
          exact hrest ⟨hc.1, h.placement_ne_zero.mp hc.2, hsel⟩
        refine ⟨s, ?_, h⟩
        have hidle : ∀ fuel i, s.placement ≤ fuel + i →
            Scheduler.pauseLoop (fun s => s.selection.isSome) fuel i s =
              .ok s := by
          intro fuel
          induction fuel with
          | zero =>
              intro i hle
              rw [Scheduler.pauseLoop, if_neg (by omega)]
          | succ fuel ih =>
              intro i hle
              rw [Scheduler.pauseLoop]
              split
              · simp only [h.selection, hfree, Option.isSome_none,
                  Result.ok_bind]
                exact ih (i + 1) (by omega)
              · rfl
        exact hidle _ _ (by omega)
    next => exact ⟨s, rfl, h⟩

theorem Represents.resumePaused
    (h : Represents s a)
    (hq : a.Queued) :
    ∃ s', Scheduler.resumePaused d s = .ok s' ∧
      Represents s' (a.resumePaused d) := by
  unfold Scheduler.resumePaused Machine.resumePaused
  rw [h.namelessOp, h.threaded.PauseQ_eq]
  cases hpause : a.pause with
  | nil =>
      refine ⟨s, ?_, h⟩
      simp
  | cons p rest =>
      have hmem : p ∈ a.pause := by simp [hpause]
      obtain ⟨hlt, hcond⟩ := hq.pause_spec hmem
      have hready : p ∉ a.ready := fun hp =>
        (List.nodup_append.mp hq.waiting_nodup).2.2 p hp p hmem rfl
      have hlen : rest.length + 1 < 2 ^ 32 := by
        have hle := hq.length_lt hq.pause_nodup
          (fun i hi => (hq.pause_spec hi).1)
        rw [hpause] at hle
        exact hle
      by_cases hresume : d = .block ∧ a.namelessOp = none
      · simp only [List.length_cons, ne_eq, Nat.add_eq_zero_iff, one_ne_zero,
          and_false, not_false_eq_true, hresume, and_self, if_true]
        obtain ⟨s₁, hs₁, hthreaded₁, hglobals₁⟩ :=
          replaceN_spec (hpause ▸ h.threaded) hlen
        have h₁ : Represents s₁ { a with pause := rest } :=
          ⟨hthreaded₁, hglobals₁.trans h.globals⟩
        have hname : Plain (fun g => { g with namelessOp := some p }) := by
          constructor <;> intros <;> rfl
        obtain ⟨s', hs', h'⟩ :=
          ((h₁.setCondition_self hcond).plain hname).qsetup hready
            (hq.ready_room hlt hready)
        refine ⟨s', ?_, h'⟩
        simp only [hs₁, Result.ok_bind, deref_some]
        exact hs'
      · rw [if_neg (fun hc => hresume hc.2)]
        refine ⟨s, rfl, ?_⟩
        simpa only [hresume, if_false] using h

end Pausing

section Dispatch

variable {d : Policy} {file : RandomFile} {s : State} {a : Machine}

/-- A routine that may meet the end of the random-number file does what the
machine does. -/
def Simulates (r : Result State) : Option Machine → Prop
  | none => r = .error .endOfFile
  | some b => ∃ s', r = .ok s' ∧ Represents s' b

theorem Simulates.bind
    {r : Result State} {o : Option Machine}
    {f : State → Result State} {g : Machine → Option Machine}
    (h : Simulates r o)
    (hf : ∀ s' b, o = some b → Represents s' b →
      Simulates (f s') (g b)) :
    Simulates (r >>= f) (o.bind g) := by
  cases o with
  | none =>
      rw [show r = .error .endOfFile from h]
      rfl
  | some b =>
      obtain ⟨s', rfl, hs'⟩ := h
      exact hf s' b rfl hs'

theorem Simulates.map
    {r : Result State} {o : Option Machine}
    {f : State → Result State} {g : Machine → Machine}
    (h : Simulates r o)
    (hf : ∀ s' b, o = some b → Represents s' b →
      ∃ s'', f s' = .ok s'' ∧ Represents s'' (g b)) :
    Simulates (r >>= f) (o.map g) := by
  cases o with
  | none =>
      rw [show r = .error .endOfFile from h]
      rfl
  | some b =>
      obtain ⟨s', rfl, hs'⟩ := h
      exact hf s' b rfl hs'

/-- A state that was reached is one of the machine. -/
theorem Simulates.of_ok
    {s' : State} {o : Option Machine}
    (h : Simulates (.ok s') o) :
    ∃ b, o = some b ∧ Represents s' b := by
  cases o with
  | none =>
      cases h
  | some b =>
      obtain ⟨s'', heq, hrep⟩ := h
      obtain rfl := Except.ok.inj heq
      exact ⟨b, rfl, hrep⟩

/-- Only the end of the file stops a routine. -/
theorem Simulates.of_error
    {e : Fault} {o : Option Machine}
    (h : Simulates (.error e) o) :
    e = .endOfFile := by
  cases o with
  | none =>
      exact Except.error.inj h
  | some b =>
      obtain ⟨_, heq, _⟩ := h
      cases heq

/-- The minimum scan keeps the first process with the least time left. -/
theorem shortestFrom_eq
    {m : Nat → Process} {presentPrime : Ptr} {l : List Nat}
    (hchain : Chain (fun i => (m i).freshPrime) presentPrime l)
    (quickPrime : Nat) :
    shortestFrom m l.length presentPrime quickPrime =
      .ok (l.foldl (fun q p =>
        if (m q).remaining > (m p).remaining then p else q) quickPrime) := by
  induction l generalizing presentPrime quickPrime with
  | nil =>
      rfl
  | cons p l ih =>
      obtain ⟨rfl, htail⟩ := hchain
      simp only [List.length_cons, shortestFrom, deref_some, Result.ok_bind,
        List.foldl_cons]
      exact ih htail _

theorem argmin_cons_eq
    (f : Nat → Nat) (q : Nat) (l : List Nat) :
    (q :: l).argmin f =
      some (l.foldl (fun q p => if f q > f p then p else q) q) := by
  have hfold : ∀ (l : List Nat) (q : Nat),
      l.foldl (List.argAux (fun b c => f b < f c)) (some q) =
        some (l.foldl (fun q p => if f q > f p then p else q) q) := by
    intro l
    induction l with
    | nil =>
        intro q
        rfl
    | cons p l ih =>
        intro q
        simp only [List.foldl_cons, List.argAux]
        split <;> exact ih _
  exact hfold l q

theorem ranomize_eq
    {B : Nat} (hB : 0 < B) (infinity : Nat) :
    ranomize B file infinity =
      match file infinity with
      | none => .error .endOfFile
      | some number => .ok ((1 + number % B) % 2 ^ 32) := by
  unfold ranomize
  cases file infinity with
  | none => rfl
  | some number => simp [hB.ne']

theorem assignBurst_linkFree
    (burst : Nat) :
    LinkFree (fun q => q.assignBurst burst) := by
  constructor <;> intro q <;> rfl

theorem launch_linkFree :
    LinkFree (Machine.launch d) := by
  constructor <;> intro q <;> rfl

theorem infinity_plain :
    Plain (fun g => { g with infinity := g.infinity + 1 }) := by
  constructor <;> intros <;> rfl

theorem selected_plain
    (p : Nat) :
    Plain (fun g => { g with selection := some p }) := by
  constructor <;> intros <;> rfl

theorem modify_draw
    {p number : Nat} {ready : List Nat} :
    Machine.modify { a with ready := ready } p
        (fun q => q.assignBurst ((1 + number % (a.Prime p).B) % 2 ^ 32)) =
      Machine.modify { a with ready := ready } p (Machine.draw number) := by
  have hupdate : update a.Prime p
      (fun q => q.assignBurst ((1 + number % (a.Prime p).B) % 2 ^ 32)) =
        update a.Prime p (Machine.draw number) :=
    (update_const a.Prime p _).symm.trans
      (update_const a.Prime p (Machine.draw number))
  simp only [Machine.modify, hupdate]

/-- The front leaves the ready queue when it is dispatched. -/
theorem start_of_ready
    {p number : Nat} {rest : List Nat}
    (hready : a.ready = p :: rest) :
    a.start d p number =
      if 0 < (Machine.draw number (a.Prime p)).CPUBurst ∨ d = .sjf then
        { (a.modify p (Machine.draw number)).modify p (Machine.launch d) with
          ready := rest
          infinity := a.infinity + 1
          selection := some p }
      else
        { a.modify p (Machine.draw number) with
          ready := rest
          infinity := a.infinity + 1 } := by
  simp only [Machine.start, Machine.modify, hready, List.erase_cons_head,
    update_same]

theorem Represents.dispatchFront
    {p : Nat} {rest : List Nat}
    (h : Represents s a)
    (hq : a.Queued)
    (hready : a.ready = p :: rest)
    (hB : 0 < (a.Prime p).B)
    (hd : d ≠ .sjf) :
    Simulates (Scheduler.dispatchFront d file s)
      ((file a.infinity).map (fun number => a.start d p number)) := by
  have hlen : rest.length + 1 < 2 ^ 32 := by
    have hle := hq.length_lt hq.ready_nodup
      (fun i hi => (hq.ready_spec hi).1)
    rw [hready] at hle
    exact hle
  obtain ⟨s₁, hs₁, hthreaded₁, hglobals₁⟩ :=
    dsetup_spec (hready ▸ h.threaded) hlen
  have h₁ : Represents s₁ { a with ready := rest } :=
    ⟨hthreaded₁, hglobals₁.trans h.globals⟩
  have hB₁ : (s₁.Prime p).B = (a.Prime p).B :=
    h₁.field Process.B (fun _ => rfl) p
  have hinfinity : s₁.infinity = a.infinity := h₁.infinity
  simp only [Scheduler.dispatchFront, hs₁, Result.ok_bind, deref_some]
  rw [ranomize_eq (by omega), hB₁, hinfinity]
  cases file a.infinity with
  | none =>
      rfl
  | some number =>
      have h₂ := h₁.modify (i := p)
        (assignBurst_linkFree ((1 + number % (a.Prime p).B) % 2 ^ 32))
      rw [modify_draw] at h₂
      have h₃ := h₂.plain infinity_plain
      have hburst := h₃.field Process.CPUBurst (fun _ => rfl) p
      simp only [Machine.modify, update_same] at hburst
      simp only [Option.map_some, Result.ok_bind,
        start_of_ready (d := d) hready]
      by_cases hpos : 0 < (Machine.draw number (a.Prime p)).CPUBurst
      · have h₄ := (h₃.modify (i := p) (launch_linkFree (d := d))).plain
          (selected_plain p)
        have hrun : 0 < (Machine.draw number (a.Prime p)).CPUBurst ∨
            d = .sjf := .inl hpos
        simp only [hrun, if_true]
        refine ⟨_, ?_, h₄⟩
        exact if_pos (hburst ▸ hpos)
      · have hstay : ¬ (0 < (Machine.draw number (a.Prime p)).CPUBurst ∨
            d = .sjf) := by
          simp [hpos, hd]
        simp only [hstay, if_false]
        refine ⟨_, ?_, h₃⟩
        exact if_neg (fun hc => hpos (hburst ▸ hc))

theorem start_sjf
    {p number : Nat} :
    a.start .sjf p number =
      { (a.modify p (Machine.draw number)).modify p (Machine.launch .sjf) with
        ready := a.ready.erase p
        infinity := a.infinity + 1
        selection := some p } := by
  simp [Machine.start, Machine.modify]

/-- Under SJF the burst is drawn after the process has been marked as
running. -/
theorem launch_draw
    {p number : Nat} {ready : List Nat} :
    ((Machine.modify { a with ready := ready } p (Machine.launch .sjf)).modify p
        (fun q => q.assignBurst ((1 + number % (a.Prime p).B) % 2 ^ 32))) =
      (Machine.modify { a with ready := ready } p
        (Machine.draw number)).modify p (Machine.launch .sjf) := by
  simp only [Machine.modify, update_update]
  rw [← update_const a.Prime p (fun q => Machine.launch .sjf
      (Machine.draw number q)),
    ← update_const a.Prime p (fun q => (Machine.launch .sjf q).assignBurst
      ((1 + number % (a.Prime p).B) % 2 ^ 32))]
  rfl

theorem Represents.dispatchShortest
    {p : Nat}
    (h : Represents s a)
    (hq : a.Queued)
    (hp : a.choose .sjf = some p)
    (hB : 0 < (a.Prime p).B) :
    Simulates (Scheduler.dispatchShortest file s)
      ((file a.infinity).map (fun number => a.start .sjf p number)) := by
  have hmem : p ∈ a.ready := Machine.choose_mem hp
  have hargmin : a.ready.argmin (fun i => (a.Prime i).remaining) = some p := by
    simpa [Machine.choose] using hp
  obtain ⟨f, rest, hready⟩ : ∃ f rest, a.ready = f :: rest :=
    List.exists_cons_of_ne_nil (List.ne_nil_of_mem hmem)
  have hfront : deref s.Afront = .ok f := by
    rw [h.threaded.readyLinks.front_eq, hready]
    rfl
  have hremaining : ∀ i, (s.Prime i).remaining = (a.Prime i).remaining :=
    h.field Process.remaining (fun _ => rfl)
  have hscan : shortestFrom s.Prime s.placement s.Afront f = .ok p := by
    rw [h.threaded.placement_eq,
      shortestFrom_eq h.threaded.readyLinks.chain, hready, List.foldl_cons]
    rw [hready, argmin_cons_eq, Option.some.injEq] at hargmin
    simp only [hremaining, lt_irrefl, gt_iff_lt, if_false]
    simpa only [gt_iff_lt] using congrArg Except.ok hargmin
  obtain ⟨s₁, hs₁, hthreaded₁, hglobals₁⟩ :=
    takeReady_spec h.threaded hmem
      (hq.length_lt hq.ready_nodup (fun i hi => (hq.ready_spec hi).1))
      (by rw [h.countPrime]; exact hq.ready_length)
      (fun i hi => by
        rw [h.field Process.processID (fun _ => rfl)]
        exact hq.ids i (hq.ready_spec hi).1)
  have h₁ : Represents s₁ { a with ready := a.ready.erase p } :=
    ⟨hthreaded₁, hglobals₁.trans h.globals⟩
  have h₂ := h₁.modify (i := p) (launch_linkFree (d := .sjf))
  have hB₂ : ((s₁.modify p (Machine.launch .sjf)).Prime p).B =
      (a.Prime p).B := by
    rw [h₂.field Process.B (fun _ => rfl)]
    simp [Machine.modify, Machine.launch]
  have hinfinity : s₁.infinity = a.infinity := h₁.infinity
  have hmark : (fun q : Process =>
      { q with condition := .running, operating := true }) =
        Machine.launch .sjf := by
    funext q
    simp [Machine.launch]
  simp only [Scheduler.dispatchShortest, hfront, hscan, hs₁, Result.ok_bind,
    hmark]
  rw [ranomize_eq (by omega), hB₂]
  show Simulates (_ >>= _) _
  have hinf₂ : (s₁.modify p (Machine.launch .sjf)).infinity = a.infinity :=
    hinfinity
  rw [hinf₂]
  cases file a.infinity with
  | none =>
      rfl
  | some number =>
      have h₃ := h₂.modify (i := p)
        (assignBurst_linkFree ((1 + number % (a.Prime p).B) % 2 ^ 32))
      rw [launch_draw] at h₃
      have h₄ := (h₃.plain infinity_plain).plain (selected_plain p)
      simp only [Option.map_some, Result.ok_bind, start_sjf]
      exact ⟨_, rfl, h₄⟩

theorem Represents.dispatch
    (h : Represents s a)
    (hq : a.Queued)
    (hB : ∀ i < a.countPrime, 0 < (a.Prime i).B) :
    Simulates (Scheduler.dispatch d file s) (a.dispatch d file) := by
  unfold Scheduler.dispatch Machine.dispatch
  rw [h.selection]
  by_cases hfree : a.selection = none
  · cases hready : a.ready with
    | nil =>
        have hchoose : a.choose d = none := by
          simp [Machine.choose, hready]
        have hplace : ¬ (s.placement ≠ 0 ∧ a.selection = none) := fun hc =>
          h.placement_ne_zero.mp hc.1 hready
        rw [if_neg hplace, if_pos hfree, hchoose]
        exact ⟨s, rfl, h⟩
    | cons p rest =>
        have hne : a.ready ≠ [] := by simp [hready]
        rw [if_pos ⟨h.placement_ne_zero.mpr hne, hfree⟩, if_pos hfree]
        by_cases hd : d = .sjf
        · subst hd
          obtain ⟨q, hq'⟩ : ∃ q, a.choose .sjf = some q := by
            simp only [Machine.choose, if_true]
            rw [hready, argmin_cons_eq]
            exact ⟨_, rfl⟩
          rw [if_pos rfl, hq']
          exact h.dispatchShortest hq hq'
            (hB q (hq.ready_spec (Machine.choose_mem hq')).1)
        · have hchoose : a.choose d = some p := by
            simp [Machine.choose, hd, hready]
          rw [if_neg hd, hchoose]
          exact h.dispatchFront hq hready
            (hB p (hq.ready_spec (Machine.choose_mem hchoose)).1) hd
  · rw [if_neg (fun hc => hfree hc.2), if_neg hfree]
    exact ⟨s, rfl, h⟩

end Dispatch

section Cycle

variable {d : Policy} {file : RandomFile} {s : State} {a : Machine}

/-- The pausing loops of `executeR` have room. -/
structure Machine.Safe (d : Policy) (file : RandomFile) (a : Machine) :
    Prop where
  others : a.OthersReady d → a.Roomy
  rest : ∀ c, ((a.pauseOthers d).resumePaused d).dispatch d file = some c →
    c.RestReady d → c.Roomy

/-- Only the policy `block` pauses processes. -/
theorem Machine.safe_of_ne_block
    (hd : d ≠ .block) :
    a.Safe d file where
  others := fun h => absurd h.2.2.2 hd
  rest := fun _ _ h => absurd h.1 hd

theorem Represents.executeR
    (h : Represents s a)
    (hq : a.Queued)
    (hB : ∀ i < a.countPrime, 0 < (a.Prime i).B)
    (hsafe : a.Safe d file) :
    Simulates (Scheduler.executeR d file s) (a.executeR d file) := by
  obtain ⟨s₁, hs₁, h₁⟩ := h.pauseOthers (d := d) hq hsafe.others
  have hq₁ := (Machine.pauseOthers_phase (d := d) hq).queued
  obtain ⟨s₂, hs₂, h₂⟩ := h₁.resumePaused (d := d) hq₁
  have hp₂ := (Machine.pauseOthers_phase (d := d) hq).trans
    (Machine.resumePaused_phase (d := d) hq₁)
  have hB₂ : ∀ i < ((a.pauseOthers d).resumePaused d).countPrime,
      0 < (((a.pauseOthers d).resumePaused d).Prime i).B := by
    intro i hi
    rw [hp₂.count] at hi
    rw [Machine.resumePaused_frame.1, Machine.pauseOthers_frame.1]
    exact hB i hi
  have hdispatch : Simulates
      (Scheduler.dispatch d file s₂)
      (((a.pauseOthers d).resumePaused d).dispatch d file) :=
    h₂.dispatch hp₂.queued hB₂
  simp only [Scheduler.executeR, hs₁, hs₂, Result.ok_bind]
  apply hdispatch.map
  intro s₃ c hc h₃
  exact h₃.pauseReady (Machine.dispatch_queued hp₂.queued hc) (hsafe.rest c hc)

/-- The part of `datapoint` before `executeR`. -/
def prepare (datastream : Policy) (s : State) : Result State := do
  let s ← proceedForward datastream s
  let s ← execxuteB s
  if s.totalPrime ≠ s.countPrime then creation s else .ok s

theorem datapoint_eq :
    datapoint d file s =
      (prepare d s >>= executeR d file) >>= fun s =>
        .ok { countdown d s with present := incr (countdown d s).present } := by
  unfold datapoint prepare
  cases proceedForward d s with
  | error e => rfl
  | ok s₁ =>
      simp only [Result.ok_bind]
      cases execxuteB s₁ with
      | error e => rfl
      | ok s₂ =>
          simp only [Result.ok_bind]
          split <;> simp only [bind_assoc, Result.ok_bind]

/-- The three routines before `executeR`, one after the other. -/
theorem Represents.stages
    {t : Nat}
    (h : Represents s a)
    (hq : a.Queued)
    (ht : a.Arrived t)
    (hpresent : a.present = t % 2 ^ 32) :
    ∃ s₁ s₂ s₃, Scheduler.proceedForward d s = .ok s₁ ∧
      Represents s₁ (a.proceedForward d) ∧
      Scheduler.execxuteB s₁ = .ok s₂ ∧
      Represents s₂ (a.proceedForward d).execxuteB ∧
      (if s₂.totalPrime ≠ s₂.countPrime then Scheduler.creation s₂
        else .ok s₂) = .ok s₃ ∧
      Represents s₃ (a.prepare d) := by
  obtain ⟨s₁, hs₁, h₁⟩ := h.proceedForward (d := d) hq
  have hp₁ := Machine.proceedForward_phase (d := d) hq
  obtain ⟨s₂, hs₂, h₂⟩ := h₁.execxuteB hp₁.queued
  have hp₂ := hp₁.trans (Machine.execxuteB_phase hp₁.queued)
  have ht₂ := hp₂.arrived t ht
  have htotal : ((a.proceedForward d).execxuteB).totalPrime < 2 ^ 32 := by
    have hle := List.countP_le_length
      (p := fun i => decide
        (((a.proceedForward d).execxuteB.Prime i).A < t))
      (l := List.range (a.proceedForward d).execxuteB.countPrime)
    rw [List.length_range] at hle
    have hfits := hp₂.queued.fits
    rw [ht₂.total_eq]
    omega
  obtain ⟨s₃, hs₃, h₃⟩ := h₂.creation hp₂.queued htotal
    (ht₂.arrivals_unstarted (hp₂.present.trans hpresent))
  exact ⟨s₁, s₂, s₃, hs₁, h₁, hs₂, h₂, hs₃, h₃⟩

theorem Represents.prepare
    {t : Nat}
    (h : Represents s a)
    (hq : a.Queued)
    (ht : a.Arrived t)
    (hpresent : a.present = t % 2 ^ 32) :
    ∃ s', Scheduler.prepare d s = .ok s' ∧
      Represents s' (a.prepare d) := by
  obtain ⟨s₁, s₂, s₃, hs₁, _, hs₂, _, hs₃, h₃⟩ :=
    h.stages (d := d) hq ht hpresent
  refine ⟨s₃, ?_, h₃⟩
  simp only [Scheduler.prepare, hs₁, hs₂, Result.ok_bind]
  exact hs₃

theorem advance_plain :
    Plain (fun g : Globals =>
      { g.countdown d with present := incr (g.countdown d).present }) where
  freshPrime := countdown_plain.freshPrime
  pushPrimeForward := countdown_plain.pushPrimeForward
  pushBlock := countdown_plain.pushBlock
  unlink := fun g => by
    rw [← (countdown_plain (d := d)).unlink g]
    rfl

/-- A cycle of the simulator does what a cycle of the machine does. -/
theorem Represents.datapoint
    {t : Nat}
    (h : Represents s a)
    (hq : a.Queued)
    (ht : a.Arrived t)
    (hpresent : a.present = t % 2 ^ 32)
    (hB : ∀ i < a.countPrime, 0 < (a.Prime i).B)
    (hsafe : (a.prepare d).Safe d file) :
    Simulates (Scheduler.datapoint d file s) (a.datapoint d file) := by
  have hopen := Machine.prepare_opened (d := d) hq ht hpresent
  obtain ⟨s₁, hs₁, h₁⟩ := h.prepare (d := d) hq ht hpresent
  have hB₁ : ∀ i < (a.prepare d).countPrime,
      0 < ((a.prepare d).Prime i).B := by
    intro i hi
    rw [hopen.count] at hi
    rw [(hopen.moves i hi).input_eq.2.1]
    exact hB i hi
  have hexec : Simulates (Scheduler.executeR d file s₁)
      ((a.prepare d).executeR d file) :=
    h₁.executeR hopen.queued hB₁ hsafe
  rw [datapoint_eq, hs₁, Result.ok_bind]
  apply hexec.map
  intro s₂ b _ h₂
  exact ⟨_, rfl, h₂.plain advance_plain⟩

end Cycle

end Scheduler
end PastWork
