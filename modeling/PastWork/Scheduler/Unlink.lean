import PastWork.Scheduler.Represent

/-!
# Leaving a queue from any position

`execxuteB` and the SJF branch of `executeR` unlink a process from the front,
the back or the middle of a queue.  In all three cases the process is erased
from the list that the queue represents.
-/

namespace PastWork
namespace Scheduler

open Links

section Release

variable {s : State} {ready pause block : List Nat} {p : Nat}

theorem setCondition_linkFree
    (c : Condition) :
    LinkFree (fun q => { q with condition := c }) := by
  constructor <;> intro q <;> rfl

theorem setCondition_processID
    {c : Condition} {i j : Nat} :
    ((s.setCondition i c).Prime j).processID = (s.Prime j).processID :=
  update_field Process.processID s.Prime i j (fun _ => rfl)

/-- A write to two links is invisible without them. -/
theorem setPushBlock_twice
    {i j : Nat} {link link' : Ptr} :
    ((s.setPushBlock i link).setPushBlock j link').toGlobals.unlink =
      s.toGlobals.unlink := by
  rw [setPushBlock_unlink, setPushBlock_unlink]

/-- The block list without an inner or last node. -/
theorem Threaded.unlinkBlock
    {pre post : List Nat} {y : Nat} {link : Ptr}
    (h : Threaded s ready pause (pre ++ y :: p :: post))
    (hlen : (pre ++ y :: p :: post).length < 2 ^ 32)
    (hlink : link = (s.Prime p).pushBlock) :
    Threaded
      { (s.setPushBlock y link).setPushBlock p none with
        Blockback := if post = [] then some y else s.Blockback
        BlockQ := decr s.BlockQ }
      ready pause (pre ++ y :: post) := by
  have hlength : (pre ++ y :: p :: post).length =
      (pre ++ y :: post).length + 1 := by
    simp only [List.length_append, List.length_cons]
    omega
  have hdecr : decr s.BlockQ = (pre ++ y :: post).length := by
    rw [h.BlockQ_eq, decr_eq (by omega) (by omega)]
    omega
  have hyp : y ≠ p := by
    rintro rfl
    have := (List.nodup_append.mp h.blockLinks.nodup).2.1
    simp at this
  have hunlink := h.blockLinks.unlinkAfter
    (fun j => (((s.setPushBlock y link).setPushBlock p none).Prime
      j).pushBlock)
    (by simp) (by simp [hyp, hlink])
    (fun z hzp hzy => by simp [hzp, hzy])
  exact
    { readyLinks := h.readyLinks.congr (by simp)
      placement_eq := h.placement_eq
      pauseLinks := h.pauseLinks.congr (by simp)
      PauseQ_eq := h.PauseQ_eq
      blockLinks := hunlink
      BlockQ_eq := hdecr }

/-- An expired process moves from the block list to the ready queue. -/
theorem releaseBlocked_spec
    (h : Threaded s ready pause block)
    (hp : p ∈ block)
    (hready : p ∉ ready)
    (hlen : ready.length + 1 < 2 ^ 32)
    (hblock : block.length < 2 ^ 32)
    (hfuel : block.length ≤ s.countPrime)
    (hids : ∀ i ∈ block, (s.Prime i).processID = i) :
    ∃ s', releaseBlocked p s = .ok s' ∧
      Threaded s' (ready ++ [p]) pause (block.erase p) ∧
      s'.toGlobals.unlink =
        { s.toGlobals.unlink with
          Prime := update s.toGlobals.unlink.Prime p
            (fun q => { q with condition := .ready }) } := by
  have h₁ : Threaded (s.setCondition p .ready) ready pause block :=
    h.modify (setCondition_linkFree .ready)
  have hglobals : (s.setCondition p .ready).toGlobals.unlink = _ :=
    unlink_modify (setCondition_linkFree .ready)
  have hids₁ : ∀ i ∈ block,
      ((s.setCondition p .ready).Prime i).processID = i := fun i hi =>
    setCondition_processID.trans (hids i hi)
  have hcount : (s.setCondition p .ready).countPrime = s.countPrime := rfl
  rw [← hcount] at hfuel
  rw [← hglobals]
  unfold releaseBlocked
  generalize s.setCondition p .ready = s₁ at h₁ hids₁ hfuel
  obtain ⟨f, hf⟩ : ∃ f, s₁.Blockfront = some f :=
    Option.ne_none_iff_exists'.mp (fun hnone =>
      List.ne_nil_of_mem hp (h₁.blockLinks.front_none.mp hnone))
  have hhead : block.head? = some f := h₁.blockLinks.front_eq ▸ hf
  have hfmem : f ∈ block := List.mem_of_mem_head? hhead
  have hfront : deref s₁.Blockfront = .ok f := by rw [hf, deref_some]
  simp only [hfront, Result.ok_bind, hids₁ p hp, hids₁ f hfmem]
  by_cases hpf : p = f
  · -- the front of the block list
    subst hpf
    rw [if_pos rfl]
    obtain ⟨rest, rfl⟩ := List.head?_eq_some_iff.mp hhead
    obtain ⟨s₂, hs₂, h₂, hg₂⟩ := removeB_spec h₁ (by simpa using hblock)
    obtain ⟨s₃, hs₃, h₃, hg₃⟩ := qsetup_spec h₂ hready hlen
    refine ⟨s₃, ?_, ?_, hg₃.trans hg₂⟩
    · rw [hs₂]
      exact hs₃
    · rw [List.erase_cons_head]
      exact h₃
  · rw [if_neg hpf]
    obtain ⟨pre, y, post, rfl, hnext, hlast, hwalk⟩ :=
      h₁.blockLinks.locate hf hp hpf
    have hy : deref (s₁.Prime y).pushBlock = .ok p := by
      rw [hnext, deref_some]
    obtain ⟨b, hbmem, hb⟩ := exists_back h₁.blockLinks (by simp)
    have hback : deref s₁.Blockback = .ok b := by rw [hb, deref_some]
    rw [hb, Option.some.injEq, eq_comm] at hlast
    rw [erase_after h₁.blockLinks.nodup]
    simp only [hback, Result.ok_bind, hids₁ b hbmem]
    by_cases hpost : post = []
    · -- the back of the block list
      obtain rfl := hlast.mpr hpost
      rw [if_pos rfl]
      have hnone : ∀ z ∈ pre ++ y :: p :: post,
          (s₁.Prime z).pushBlock = none ↔ z = p := fun z hz =>
        (hb ▸ h₁.blockLinks).next_eq_none_iff hz
      have h₂ := h₁.unlinkBlock hblock ((hnone p hp).mpr rfl).symm
      rw [if_pos hpost] at h₂
      obtain ⟨s₃, hs₃, h₃, hg₃⟩ := qsetup_spec h₂ hready hlen
      refine ⟨s₃, ?_, h₃, hg₃.trans setPushBlock_twice⟩
      rw [hwalk _ _ hfuel (by simpa using (hnone p hp).mpr rfl)
        (fun z hz hzp => by simpa [hnone z hz] using hzp)]
      simp only [Result.ok_bind, hy]
      exact hs₃
    · -- the middle of the block list
      rw [if_neg (fun heq => hpost (hlast.mp heq))]
      have h₂ := h₁.unlinkBlock hblock rfl
      rw [if_neg hpost] at h₂
      obtain ⟨s₃, hs₃, h₃, hg₃⟩ := qsetup_spec h₂ hready hlen
      have hlinks : s₃.toGlobals.unlink =
          ((s₁.setPushBlock y (s₁.Prime p).pushBlock).setPushBlock p
            none).toGlobals.unlink := hg₃
      refine ⟨s₃, ?_, h₃, hlinks.trans setPushBlock_twice⟩
      rw [hwalk _ _ hfuel (by simpa using hids₁ p hp)
        (fun z hz hzp => by simpa [hids₁ z hz] using hzp)]
      simp only [Result.ok_bind, hy]
      exact hs₃

end Release

section Take

variable {s : State} {ready pause block : List Nat} {p : Nat}

theorem setFreshPrime_twice
    {i j : Nat} {link link' : Ptr} :
    ((s.setFreshPrime i link).setFreshPrime j link').toGlobals.unlink =
      s.toGlobals.unlink := by
  rw [setFreshPrime_unlink, setFreshPrime_unlink]

/-- The ready queue without an inner or last node. -/
theorem Threaded.unlinkReady
    {pre post : List Nat} {y : Nat} {link : Ptr}
    (h : Threaded s (pre ++ y :: p :: post) pause block)
    (hlen : (pre ++ y :: p :: post).length < 2 ^ 32)
    (hlink : link = (s.Prime p).freshPrime) :
    Threaded
      { (s.setFreshPrime y link).setFreshPrime p none with
        Aback := if post = [] then some y else s.Aback
        placement := decr s.placement }
      (pre ++ y :: post) pause block := by
  have hlength : (pre ++ y :: p :: post).length =
      (pre ++ y :: post).length + 1 := by
    simp only [List.length_append, List.length_cons]
    omega
  have hdecr : decr s.placement = (pre ++ y :: post).length := by
    rw [h.placement_eq, decr_eq (by omega) (by omega)]
    omega
  have hyp : y ≠ p := by
    rintro rfl
    have := (List.nodup_append.mp h.readyLinks.nodup).2.1
    simp at this
  have hunlink := h.readyLinks.unlinkAfter
    (fun j => (((s.setFreshPrime y link).setFreshPrime p none).Prime
      j).freshPrime)
    (by simp) (by simp [hyp, hlink])
    (fun z hzp hzy => by simp [hzp, hzy])
  exact
    { readyLinks := hunlink
      placement_eq := hdecr
      pauseLinks := h.pauseLinks.congr (by simp)
      PauseQ_eq := h.PauseQ_eq
      blockLinks := h.blockLinks.congr (by simp)
      BlockQ_eq := h.BlockQ_eq }

/-- The SJF branch removes the process it has chosen from the ready queue. -/
theorem takeReady_spec
    (h : Threaded s ready pause block)
    (hp : p ∈ ready)
    (hlen : ready.length < 2 ^ 32)
    (hfuel : ready.length ≤ s.countPrime)
    (hids : ∀ i ∈ ready, (s.Prime i).processID = i) :
    ∃ s', takeReady p s = .ok (p, s') ∧
      Threaded s' (ready.erase p) pause block ∧
      s'.toGlobals.unlink = s.toGlobals.unlink := by
  unfold takeReady
  obtain ⟨f, hf⟩ : ∃ f, s.Afront = some f :=
    Option.ne_none_iff_exists'.mp (fun hnone =>
      List.ne_nil_of_mem hp (h.readyLinks.front_none.mp hnone))
  have hhead : ready.head? = some f := h.readyLinks.front_eq ▸ hf
  have hfmem : f ∈ ready := List.mem_of_mem_head? hhead
  have hfront : deref s.Afront = .ok f := by rw [hf, deref_some]
  simp only [hfront, Result.ok_bind, hids p hp, hids f hfmem]
  by_cases hpf : f = p
  · -- the front of the ready queue
    subst hpf
    rw [if_pos rfl]
    obtain ⟨rest, rfl⟩ := List.head?_eq_some_iff.mp hhead
    obtain ⟨s₂, hs₂, h₂, hg₂⟩ := dsetup_spec h (by simpa using hlen)
    refine ⟨s₂, ?_, ?_, hg₂⟩
    · rw [hs₂]
      rfl
    · rw [List.erase_cons_head]
      exact h₂
  · rw [if_neg hpf]
    obtain ⟨pre, y, post, rfl, hnext, hlast, hwalk⟩ :=
      h.readyLinks.locate hf hp (Ne.symm hpf)
    have hy : deref (s.Prime y).freshPrime = .ok p := by
      rw [hnext, deref_some]
    obtain ⟨b, hbmem, hb⟩ := exists_back h.readyLinks (by simp)
    have hback : deref s.Aback = .ok b := by rw [hb, deref_some]
    rw [hb, Option.some.injEq] at hlast
    rw [erase_after h.readyLinks.nodup]
    simp only [hback, Result.ok_bind, hids b hbmem]
    by_cases hpost : post = []
    · -- the back of the ready queue
      obtain rfl := hlast.mpr hpost
      rw [if_pos rfl]
      have hnone : ∀ z ∈ pre ++ y :: b :: post,
          (s.Prime z).freshPrime = none ↔ z = b := fun z hz =>
        (hb ▸ h.readyLinks).next_eq_none_iff hz
      have h₂ := h.unlinkReady hlen ((hnone b hp).mpr rfl).symm
      rw [if_pos hpost] at h₂
      refine ⟨_, ?_, h₂, setFreshPrime_twice⟩
      rw [hwalk _ _ hfuel (by simpa using (hnone b hp).mpr rfl)
        (fun z hz hzp => by simpa [hnone z hz] using hzp)]
      simp only [Result.ok_bind, hy]
      rfl
    · -- the middle of the ready queue
      rw [if_neg (fun heq => hpost (hlast.mp heq))]
      have h₂ := h.unlinkReady hlen rfl
      rw [if_neg hpost] at h₂
      have hlinks : ((s.setFreshPrime y (s.Prime p).freshPrime).setFreshPrime p
          none).toGlobals.unlink = s.toGlobals.unlink := setFreshPrime_twice
      refine ⟨_, ?_, h₂, hlinks⟩
      rw [hwalk _ _ hfuel (by simpa using hids p hp)
        (fun z hz hzp => by simpa [hids z hz] using hzp)]
      simp only [Result.ok_bind, hy]
      rfl

end Take

end Scheduler
end PastWork
