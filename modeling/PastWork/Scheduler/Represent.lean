import PastWork.Scheduler.Cycle

/-!
# Linked queues represent lists

`Threaded s ready pause block` says that the three intrusive queues of a state
hold these lists, with the right counters.  Each queue routine then does to the
list what its name says, and changes nothing but links and queue pointers.
-/

namespace PastWork
namespace Scheduler

open Links

/-- The three queues of a state, as lists. -/
structure Threaded
    (s : State)
    (ready pause block : List Nat) : Prop where
  readyLinks : Linked (fun i => (s.Prime i).freshPrime)
    s.Afront s.Aback ready
  placement_eq : s.placement = ready.length
  pauseLinks : Linked (fun i => (s.Prime i).pushPrimeForward)
    s.Pausefront s.Pauseback pause
  PauseQ_eq : s.PauseQ = pause.length
  blockLinks : Linked (fun i => (s.Prime i).pushBlock)
    s.Blockfront s.Blockback block
  BlockQ_eq : s.BlockQ = block.length

/-- A change of a process that has nothing to do with its links. -/
structure LinkFree (f : Process → Process) : Prop where
  freshPrime : ∀ q, (f q).freshPrime = q.freshPrime
  pushPrimeForward : ∀ q, (f q).pushPrimeForward = q.pushPrimeForward
  pushBlock : ∀ q, (f q).pushBlock = q.pushBlock
  unlink : ∀ q, (f q).unlink = f q.unlink

theorem chargeBurst_linkFree :
    LinkFree Process.chargeBurst := by
  constructor <;> intro q <;>
    simp [Process.chargeBurst_eq, Process.unlink]

section Updates

variable {s : State} {ready pause block : List Nat}
variable {i j : Nat} {f : Process → Process} {link : Ptr}

@[simp] theorem setFreshPrime_freshPrime :
    ((s.setFreshPrime i link).Prime j).freshPrime =
      if j = i then link else (s.Prime j).freshPrime := by
  by_cases h : j = i <;> simp [State.setFreshPrime, State.modify, update, h]

@[simp] theorem setFreshPrime_pushPrimeForward :
    ((s.setFreshPrime i link).Prime j).pushPrimeForward =
      (s.Prime j).pushPrimeForward :=
  update_field Process.pushPrimeForward s.Prime i j (fun _ => rfl)

@[simp] theorem setFreshPrime_pushBlock :
    ((s.setFreshPrime i link).Prime j).pushBlock =
      (s.Prime j).pushBlock :=
  update_field Process.pushBlock s.Prime i j (fun _ => rfl)

@[simp] theorem setPushPrimeForward_pushPrimeForward :
    ((s.setPushPrimeForward i link).Prime j).pushPrimeForward =
      if j = i then link else (s.Prime j).pushPrimeForward := by
  by_cases h : j = i <;>
    simp [State.setPushPrimeForward, State.modify, update, h]

@[simp] theorem setPushPrimeForward_freshPrime :
    ((s.setPushPrimeForward i link).Prime j).freshPrime =
      (s.Prime j).freshPrime :=
  update_field Process.freshPrime s.Prime i j (fun _ => rfl)

@[simp] theorem setPushPrimeForward_pushBlock :
    ((s.setPushPrimeForward i link).Prime j).pushBlock =
      (s.Prime j).pushBlock :=
  update_field Process.pushBlock s.Prime i j (fun _ => rfl)

@[simp] theorem setPushBlock_pushBlock :
    ((s.setPushBlock i link).Prime j).pushBlock =
      if j = i then link else (s.Prime j).pushBlock := by
  by_cases h : j = i <;> simp [State.setPushBlock, State.modify, update, h]

@[simp] theorem setPushBlock_freshPrime :
    ((s.setPushBlock i link).Prime j).freshPrime =
      (s.Prime j).freshPrime :=
  update_field Process.freshPrime s.Prime i j (fun _ => rfl)

@[simp] theorem setPushBlock_pushPrimeForward :
    ((s.setPushBlock i link).Prime j).pushPrimeForward =
      (s.Prime j).pushPrimeForward :=
  update_field Process.pushPrimeForward s.Prime i j (fun _ => rfl)

/-- A write that only touches links is invisible without them. -/
theorem unlink_modify_link
    (hf : ∀ q, (f q).unlink = q.unlink) :
    (s.modify i f).toGlobals.unlink = s.toGlobals.unlink := by
  apply Globals.ext <;> try rfl
  funext j
  exact update_field Process.unlink s.Prime i j hf

@[simp] theorem setFreshPrime_unlink :
    (s.setFreshPrime i link).toGlobals.unlink = s.toGlobals.unlink :=
  unlink_modify_link (fun _ => rfl)

@[simp] theorem setPushPrimeForward_unlink :
    (s.setPushPrimeForward i link).toGlobals.unlink = s.toGlobals.unlink :=
  unlink_modify_link (fun _ => rfl)

@[simp] theorem setPushBlock_unlink :
    (s.setPushBlock i link).toGlobals.unlink = s.toGlobals.unlink :=
  unlink_modify_link (fun _ => rfl)

theorem unlink_modify
    (hf : LinkFree f) :
    (s.modify i f).toGlobals.unlink =
      { s.toGlobals.unlink with
        Prime := update s.toGlobals.unlink.Prime i f } := by
  apply Globals.ext <;> try rfl
  funext j
  simp only [State.modify, Globals.unlink, update]
  split
  · exact hf.unlink _
  · rfl

theorem Threaded.modify
    (h : Threaded s ready pause block)
    (hf : LinkFree f) :
    Threaded (s.modify i f) ready pause block where
  readyLinks := h.readyLinks.congr (fun j =>
    update_field Process.freshPrime s.Prime i j hf.freshPrime)
  placement_eq := h.placement_eq
  pauseLinks := h.pauseLinks.congr (fun j =>
    update_field Process.pushPrimeForward s.Prime i j hf.pushPrimeForward)
  PauseQ_eq := h.PauseQ_eq
  blockLinks := h.blockLinks.congr (fun j =>
    update_field Process.pushBlock s.Prime i j hf.pushBlock)
  BlockQ_eq := h.BlockQ_eq

end Updates

section Queues

variable {s : State} {ready pause block : List Nat} {i : Nat}

theorem exists_back
    {next : Nat → Option Nat} {front back : Option Nat} {l : List Nat}
    (h : Linked next front back l)
    (hne : l ≠ []) :
    ∃ y ∈ l, back = some y := by
  obtain ⟨y, hy⟩ : ∃ y, back = some y :=
    Option.ne_none_iff_exists'.mp (fun hnone => hne (h.back_none.mp hnone))
  exact ⟨y, List.mem_of_getLast? (h.back_eq ▸ hy), hy⟩

/-- `Qsetup` appends to the ready queue. -/
theorem qsetup_spec
    (h : Threaded s ready pause block)
    (hi : i ∉ ready)
    (hlen : ready.length + 1 < 2 ^ 32) :
    ∃ s', qsetup (some i) s = .ok s' ∧
      Threaded s' (ready ++ [i]) pause block ∧
      s'.toGlobals.unlink = s.toGlobals.unlink := by
  have hincr : incr s.placement = (ready ++ [i]).length := by
    rw [h.placement_eq, incr_eq hlen]
    simp
  by_cases hempty : ready = []
  · subst hempty
    have hzero : s.placement = 0 := h.placement_eq
    refine ⟨{ s with
      Afront := some i
      Aback := some i
      placement := incr s.placement }, ?_, ?_, rfl⟩
    · rw [qsetup, if_pos hzero]
    · exact
        { readyLinks := h.readyLinks.pushFirst i
          placement_eq := hincr
          pauseLinks := h.pauseLinks
          PauseQ_eq := h.PauseQ_eq
          blockLinks := h.blockLinks
          BlockQ_eq := h.BlockQ_eq }
  · have hne : s.placement ≠ 0 := by
      rw [h.placement_eq]
      simpa using hempty
    obtain ⟨y, hmem, hy⟩ := exists_back h.readyLinks hempty
    have hyi : i ≠ y := fun heq => hi (heq ▸ hmem)
    refine ⟨{ (s.setFreshPrime i none).setFreshPrime y (some i) with
      Aback := some i
      placement := incr s.placement }, ?_, ?_, ?_⟩
    · rw [qsetup, if_neg hne]
      show (deref s.Aback >>= _) = _
      rw [hy]
      show Except.ok _ = Except.ok _
      simp only [setFreshPrime_freshPrime, if_true]
      rfl
    · have hpush := (hy ▸ h.readyLinks).pushBack
        (fun j => (((s.setFreshPrime i none).setFreshPrime y
          (some i)).Prime j).freshPrime)
        hi (by simp [hyi]) (by simp)
        (fun z hzi hzy => by simp [hzi, hzy])
      exact
        { readyLinks := hpush
          placement_eq := hincr
          pauseLinks := h.pauseLinks.congr (by simp)
          PauseQ_eq := h.PauseQ_eq
          blockLinks := h.blockLinks.congr (by simp)
          BlockQ_eq := h.BlockQ_eq }
    · exact setFreshPrime_unlink.trans setFreshPrime_unlink

/-- `dsetup` removes the front of the ready queue. -/
theorem dsetup_spec
    (h : Threaded s (i :: ready) pause block)
    (hlen : ready.length + 1 < 2 ^ 32) :
    ∃ s', dsetup s = .ok (some i, s') ∧
      Threaded s' ready pause block ∧
      s'.toGlobals.unlink = s.toGlobals.unlink := by
  have hplace : s.placement = ready.length + 1 := h.placement_eq
  have hdecr : decr s.placement = ready.length := by
    rw [decr_eq (by omega) (by omega)]
    omega
  have hne : s.placement ≠ 0 := by omega
  have hfront : s.Afront = some i := h.readyLinks.front_eq
  have hback : (if decr s.placement = 0 then none else s.Aback) =
      if ready = [] then none else s.Aback := by
    rw [hdecr]
    simp [List.length_eq_zero_iff]
  refine ⟨{ s.setFreshPrime i none with
    Afront := (s.Prime i).freshPrime
    Aback := if ready = [] then none else s.Aback
    placement := decr s.placement }, ?_, ?_, setFreshPrime_unlink⟩
  · rw [dsetup, if_neg hne, hfront, ← hback]
    simp only [deref_some, Result.ok_bind]
    split <;> rfl
  · have hpop := h.readyLinks.popFront
      (fun j => ((s.setFreshPrime i none).Prime j).freshPrime)
      (by simp) (fun z hz => by simp [hz])
    exact
      { readyLinks := hpop
        placement_eq := hdecr
        pauseLinks := h.pauseLinks.congr (by simp)
        PauseQ_eq := h.PauseQ_eq
        blockLinks := h.blockLinks.congr (by simp)
        BlockQ_eq := h.BlockQ_eq }

/-- `pauseQue` appends to the pause queue.  Its first insertion moves `Afront`
to `Aback`, which loses nothing while at most one process is ready. -/
theorem pauseQue_spec
    (h : Threaded s ready pause block)
    (hi : i ∉ pause)
    (hlen : pause.length + 1 < 2 ^ 32)
    (hsafe : pause = [] → ready.length ≤ 1) :
    ∃ s', pauseQue (some i) s = .ok s' ∧
      Threaded s' ready (pause ++ [i]) block ∧
      s'.toGlobals.unlink = s.toGlobals.unlink := by
  have hincr : incr s.PauseQ = (pause ++ [i]).length := by
    rw [h.PauseQ_eq, incr_eq hlen]
    simp
  by_cases hempty : pause = []
  · subst hempty
    have hzero : s.PauseQ = 0 := h.PauseQ_eq
    have hfront : s.Aback = s.Afront := by
      have hle := hsafe rfl
      rw [h.readyLinks.back_eq, h.readyLinks.front_eq]
      match ready, hle with
      | [], _ => rfl
      | [x], _ => rfl
    refine ⟨{ s with
      Pausefront := some i
      Pauseback := some i
      Afront := s.Aback
      PauseQ := incr s.PauseQ }, ?_, ?_, rfl⟩
    · rw [pauseQue, if_pos hzero]
    · exact
        { readyLinks := hfront ▸ h.readyLinks
          placement_eq := h.placement_eq
          pauseLinks := h.pauseLinks.pushFirst i
          PauseQ_eq := hincr
          blockLinks := h.blockLinks
          BlockQ_eq := h.BlockQ_eq }
  · have hne : s.PauseQ ≠ 0 := by
      rw [h.PauseQ_eq]
      simpa using hempty
    obtain ⟨y, hmem, hy⟩ := exists_back h.pauseLinks hempty
    have hyi : i ≠ y := fun heq => hi (heq ▸ hmem)
    refine ⟨{ (s.setPushPrimeForward i none).setPushPrimeForward y (some i) with
      Pauseback := some i
      PauseQ := incr s.PauseQ }, ?_, ?_, ?_⟩
    · rw [pauseQue, if_neg hne]
      show (deref s.Pauseback >>= _) = _
      rw [hy]
      show Except.ok _ = Except.ok _
      simp only [setPushPrimeForward_pushPrimeForward, if_true]
      rfl
    · have hpush := (hy ▸ h.pauseLinks).pushBack
        (fun j => (((s.setPushPrimeForward i none).setPushPrimeForward
          y (some i)).Prime j).pushPrimeForward)
        hi (by simp [hyi]) (by simp)
        (fun z hzi hzy => by simp [hzi, hzy])
      exact
        { readyLinks := h.readyLinks.congr (by simp)
          placement_eq := h.placement_eq
          pauseLinks := hpush
          PauseQ_eq := hincr
          blockLinks := h.blockLinks.congr (by simp)
          BlockQ_eq := h.BlockQ_eq }
    · exact setPushPrimeForward_unlink.trans setPushPrimeForward_unlink

/-- `replaceN` removes the front of the pause queue. -/
theorem replaceN_spec
    (h : Threaded s ready (i :: pause) block)
    (hlen : pause.length + 1 < 2 ^ 32) :
    ∃ s', replaceN s = .ok (some i, s') ∧
      Threaded s' ready pause block ∧
      s'.toGlobals.unlink = s.toGlobals.unlink := by
  have hpauseQ : s.PauseQ = pause.length + 1 := h.PauseQ_eq
  have hdecr : decr s.PauseQ = pause.length := by
    rw [decr_eq (by omega) (by omega)]
    omega
  have hne : s.PauseQ ≠ 0 := by omega
  have hfront : s.Pausefront = some i := h.pauseLinks.front_eq
  have hback : (if decr s.PauseQ = 0 then none else s.Pauseback) =
      if pause = [] then none else s.Pauseback := by
    rw [hdecr]
    simp [List.length_eq_zero_iff]
  refine ⟨{ s.setPushPrimeForward i none with
    Pausefront := (s.Prime i).pushPrimeForward
    Pauseback := if pause = [] then none else s.Pauseback
    PauseQ := decr s.PauseQ }, ?_, ?_, setPushPrimeForward_unlink⟩
  · rw [replaceN, if_neg hne, hfront, ← hback]
    simp only [deref_some, Result.ok_bind]
    split <;> rfl
  · have hpop := h.pauseLinks.popFront
      (fun j =>
        ((s.setPushPrimeForward i none).Prime j).pushPrimeForward)
      (by simp) (fun z hz => by simp [hz])
    exact
      { readyLinks := h.readyLinks.congr (by simp)
        placement_eq := h.placement_eq
        pauseLinks := hpop
        PauseQ_eq := hdecr
        blockLinks := h.blockLinks.congr (by simp)
        BlockQ_eq := h.BlockQ_eq }

/-- `insertB` appends to the block list. -/
theorem insertB_spec
    (h : Threaded s ready pause block)
    (hi : i ∉ block)
    (hlen : block.length + 1 < 2 ^ 32) :
    Threaded (insertB (some i) s) ready pause (block ++ [i]) ∧
      (insertB (some i) s).toGlobals.unlink = s.toGlobals.unlink := by
  have hincr : incr s.BlockQ = (block ++ [i]).length := by
    rw [h.BlockQ_eq, incr_eq hlen]
    simp
  by_cases hempty : block = []
  · subst hempty
    have hfront : s.Blockfront = none := h.blockLinks.front_eq
    have heq : insertB (some i) s =
        { s with
          Blockfront := some i
          Blockback := some i
          BlockQ := incr s.BlockQ } := by
      simp only [insertB, hfront]
    rw [heq]
    refine ⟨?_, rfl⟩
    exact
      { readyLinks := h.readyLinks
        placement_eq := h.placement_eq
        pauseLinks := h.pauseLinks
        PauseQ_eq := h.PauseQ_eq
        blockLinks := h.blockLinks.pushFirst i
        BlockQ_eq := hincr }
  · obtain ⟨x, hx⟩ : ∃ x, s.Blockfront = some x :=
      Option.ne_none_iff_exists'.mp
        (fun hnone => hempty (h.blockLinks.front_none.mp hnone))
    obtain ⟨y, hmem, hy⟩ := exists_back h.blockLinks hempty
    have heq : insertB (some i) s =
        { s.setPushBlock y (some i) with
          Blockback := some i
          BlockQ := incr s.BlockQ } := by
      simp only [insertB, hx, hy]
      rfl
    have hyi : i ≠ y := fun h => hi (h ▸ hmem)
    have hoff : (s.Prime i).pushBlock = none := h.blockLinks.off i hi
    rw [heq]
    refine ⟨?_, setPushBlock_unlink⟩
    have hpush := (hy ▸ h.blockLinks).pushBack
      (fun j => ((s.setPushBlock y (some i)).Prime j).pushBlock)
      hi (by simp [hyi, hoff]) (by simp)
      (fun z hzi hzy => by simp [hzy])
    exact
      { readyLinks := h.readyLinks.congr (by simp)
        placement_eq := h.placement_eq
        pauseLinks := h.pauseLinks.congr (by simp)
        PauseQ_eq := h.PauseQ_eq
        blockLinks := hpush
        BlockQ_eq := hincr }

/-- `removeB` removes the front of the block list. -/
theorem removeB_spec
    (h : Threaded s ready pause (i :: block))
    (hlen : block.length + 1 < 2 ^ 32) :
    ∃ s', removeB s = (some i, s') ∧
      Threaded s' ready pause block ∧
      s'.toGlobals.unlink = s.toGlobals.unlink := by
  have hblockQ : s.BlockQ = block.length + 1 := h.BlockQ_eq
  have hdecr : decr s.BlockQ = block.length := by
    rw [decr_eq (by omega) (by omega)]
    omega
  have hfront : s.Blockfront = some i := h.blockLinks.front_eq
  have hpop := h.blockLinks.popFront
    (fun j => ((s.setPushBlock i none).Prime j).pushBlock)
    (by simp) (fun z hz => by simp [hz])
  have hback :
      (if (s.Prime i).pushBlock = none then none else s.Blockback) =
        if block = [] then none else s.Blockback := by
    simp only [hpop.front_none]
  refine ⟨{ s.setPushBlock i none with
    Blockfront := (s.Prime i).pushBlock
    Blockback := if block = [] then none else s.Blockback
    BlockQ := decr s.BlockQ }, ?_, ?_, setPushBlock_unlink⟩
  · simp only [removeB, hfront]
    rw [← hback]
    split <;> rfl
  · exact
      { readyLinks := h.readyLinks.congr (by simp)
        placement_eq := h.placement_eq
        pauseLinks := h.pauseLinks.congr (by simp)
        PauseQ_eq := h.PauseQ_eq
        blockLinks := hpop
        BlockQ_eq := hdecr }

end Queues

end Scheduler
end PastWork
