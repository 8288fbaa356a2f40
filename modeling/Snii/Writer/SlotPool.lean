import Mathlib.Data.List.Nodup
import Snii.Writer.SpimiTermBuffer

/-!
# The slot pool

The ids with a slot are the live ids, each with a slot of its own; every other
slot is on the free stack, once, and holds a fresh accumulator.  Claiming a slot
and releasing one keep this, and so does taking out any list of live ids.
-/

namespace Snii.Writer.SpimiTermBuffer

open Snii.Lib.ByteReader

/-- The slot index and the slots agree on the live ids. -/
structure SlotInv (b : Buffer) (live : List Nat) : Prop where
  size : b.slotOf.length = b.vocab.length
  nodup : live.Nodup
  live_iff : ∀ id, b.slotOf.getD id 0 ≠ 0 ↔ id ∈ live
  bound : ∀ id ∈ live, b.slotOf.getD id 0 ≤ b.slots.length
  inj : ∀ id ∈ live, ∀ id' ∈ live, b.slotOf.getD id 0 = b.slotOf.getD id' 0 → id = id'
  freeNodup : b.freeSlots.Nodup
  free_iff : ∀ s, s ∈ b.freeSlots ↔
    s < b.slots.length ∧ ∀ id ∈ live, b.slotOf.getD id 0 ≠ s + 1
  fresh : ∀ s ∈ b.freeSlots, b.slots.getD s {} = {}
  count : b.liveTermCount = live.length

theorem getD_set_self {α : Type*} {l : List α} {i : Nat} (h : i < l.length) (x d : α) :
    (l.set i x).getD i d = x := by
  simp [h]

theorem getD_set_ne {α : Type*} {l : List α} {i j : Nat} (h : i ≠ j) (x d : α) :
    (l.set i x).getD j d = l.getD j d := by
  simp [List.getElem?_set_ne h]

variable {b : Buffer} {live : List Nat}

theorem SlotInv.lt_length (h : SlotInv b live) {id : Nat} (hid : id ∈ live) :
    id < b.slotOf.length := by
  by_contra hge
  have hne := (h.live_iff id).mpr hid
  simp only [List.getD_eq_getElem?_getD] at hne
  rw [List.getElem?_eq_none (by omega)] at hne
  exact hne rfl

/-- The term of a live id. -/
def liveTerm (b : Buffer) (id : Nat) : Term := b.slots.getD (b.slotOf.getD id 0 - 1) {}

/-! ## Claiming a slot -/

/-- A live id keeps its slot and nothing changes. -/
theorem termSlot_live (h : SlotInv b live) {id : Nat} (hid : id ∈ live) :
    termSlot b id = (b.slotOf.getD id 0 - 1, false, b) := by
  have hne := (h.live_iff id).mpr hid
  unfold termSlot
  simp only [if_pos hne]

/-- A buffer with one more live id in a fresh slot. -/
structure Claimed (b b' : Buffer) (id slot : Nat) (live : List Nat) : Prop where
  inv : SlotInv { b' with liveTermCount := b'.liveTermCount + 1 } (live ++ [id])
  slotOf : b'.slotOf.getD id 0 = slot + 1
  lt : slot < b'.slots.length
  fresh : b'.slots.getD slot {} = {}
  keeps : ∀ j ∈ live, liveTerm b' j = liveTerm b j
  same : b' = { b with slotOf := b'.slotOf, slots := b'.slots, freeSlots := b'.freeSlots }

/-- A slot that may be handed to a new id: it is fresh, no live id uses it, and the slots
there were stay as they are. -/
structure Claimable (b : Buffer) (live : List Nat) (slot : Nat) (slots : List Term)
    (free : List Nat) : Prop where
  lt : slot < slots.length
  grows : b.slots.length ≤ slots.length
  keeps : ∀ s < b.slots.length, slots.getD s {} = b.slots.getD s {}
  fresh : slots.getD slot {} = {}
  unused : ∀ j ∈ live, b.slotOf.getD j 0 ≠ slot + 1
  freeNodup : free.Nodup
  free_iff : ∀ s, s ∈ free ↔
    s ≠ slot ∧ s < slots.length ∧ ∀ j ∈ live, b.slotOf.getD j 0 ≠ s + 1
  freeFresh : ∀ s ∈ free, slots.getD s {} = {}

/-- With no slot free, a new one at the end may be handed out. -/
theorem SlotInv.claimable_end (h : SlotInv b live) (hfree : b.freeSlots = []) :
    Claimable b live b.slots.length (b.slots ++ [({} : Term)]) [] := by
  refine ⟨by simp, by simp, ?_, by simp, ?_, List.nodup_nil, ?_, by simp⟩
  · intro s hs
    simp [List.getElem?_append_left hs]
  · intro j hj heq
    have := h.bound j hj
    omega
  · intro s
    simp only [List.not_mem_nil, List.length_append, List.length_singleton, false_iff, not_and]
    intro hne hlt hall
    have hmem := (h.free_iff s).mpr ⟨by omega, hall⟩
    rw [hfree] at hmem
    cases hmem

/-- The first free slot may be handed out. -/
theorem SlotInv.claimable_free (h : SlotInv b live) {slot : Nat} {free : List Nat}
    (hfree : b.freeSlots = slot :: free) : Claimable b live slot b.slots free := by
  have hin : slot ∈ b.freeSlots := by
    rw [hfree]
    exact List.mem_cons_self
  have hnd := h.freeNodup
  rw [hfree] at hnd
  obtain ⟨hslot, hnd⟩ := List.nodup_cons.mp hnd
  refine ⟨((h.free_iff slot).mp hin).1, Nat.le_refl _, fun _ _ => rfl, h.fresh slot hin,
    ((h.free_iff slot).mp hin).2, hnd, ?_, ?_⟩
  · intro s
    rw [← h.free_iff s, hfree, List.mem_cons]
    constructor
    · intro hs
      exact ⟨fun heq => hslot (heq ▸ hs), Or.inr hs⟩
    · rintro ⟨hne, rfl | hs⟩
      · exact absurd rfl hne
      · exact hs
  · intro s hs
    apply h.fresh s
    rw [hfree]
    exact List.mem_cons_of_mem _ hs

/-- **Handing out a claimable slot** keeps the invariant. -/
theorem SlotInv.claim (h : SlotInv b live) {id slot : Nat} {slots : List Term} {free : List Nat}
    (hid : id < b.slotOf.length) (hnew : id ∉ live) (hc : Claimable b live slot slots free) :
    Claimed b { b with freeSlots := free, slots := slots, slotOf := b.slotOf.set id (slot + 1) }
      id slot live := by
  have hother : ∀ (j v : Nat), j ≠ id → (b.slotOf.set id v).getD j 0 = b.slotOf.getD j 0 :=
    fun j v hj => getD_set_ne (Ne.symm hj) _ _
  have hliveNe : ∀ j ∈ live, j ≠ id := fun j hj heq => hnew (heq ▸ hj)
  have hself : (b.slotOf.set id (slot + 1)).getD id 0 = slot + 1 := getD_set_self hid _ _
  have hlt := hc.lt
  have hgrows := hc.grows
  refine ⟨⟨by simpa using h.size, ?_, ?_, ?_, ?_, hc.freeNodup, ?_, hc.freeFresh, ?_⟩, hself, hlt,
    hc.fresh, ?_, rfl⟩
  · exact List.nodup_append.mpr ⟨h.nodup, by simp, by
      intro j hj i hi heq
      rw [List.mem_singleton.mp hi] at heq
      exact hnew (heq ▸ hj)⟩
  · intro j
    by_cases hj : j = id
    · subst hj
      simp only [hself]
      simp
    · simp only [hother j _ hj, h.live_iff j, List.mem_append, List.mem_singleton, hj, or_false]
  · intro j hj
    rcases List.mem_append.mp hj with hj | hj
    · simp only [hother j _ (hliveNe j hj)]
      have := h.bound j hj
      omega
    · rw [List.mem_singleton.mp hj]
      simp only [hself]
      omega
  · intro j hj i hi heq
    rcases List.mem_append.mp hj with hj | hj
    · rcases List.mem_append.mp hi with hi | hi
      · simp only [hother j _ (hliveNe j hj), hother i _ (hliveNe i hi)] at heq
        exact h.inj j hj i hi heq
      · rw [List.mem_singleton.mp hi] at heq
        simp only [hself, hother j _ (hliveNe j hj)] at heq
        exact absurd heq (hc.unused j hj)
    · rw [List.mem_singleton.mp hj] at heq ⊢
      rcases List.mem_append.mp hi with hi | hi
      · simp only [hself, hother i _ (hliveNe i hi)] at heq
        exact absurd heq.symm (hc.unused i hi)
      · rw [List.mem_singleton.mp hi]
  · intro s
    rw [hc.free_iff s]
    constructor
    · rintro ⟨hne, hs, hall⟩
      refine ⟨hs, fun j hj => ?_⟩
      rcases List.mem_append.mp hj with hj | hj
      · simp only [hother j _ (hliveNe j hj)]
        exact hall j hj
      · rw [List.mem_singleton.mp hj]
        simp only [hself]
        omega
    · rintro ⟨hs, hall⟩
      refine ⟨?_, hs, fun j hj => ?_⟩
      · have := hall id (by simp)
        simp only [hself] at this
        omega
      · have := hall j (by simp [hj])
        simpa only [hother j _ (hliveNe j hj)] using this
  · simp [h.count]
  · intro j hj
    have hb := h.bound j hj
    have hne := (h.live_iff j).mpr hj
    simp only [liveTerm, hother j _ (hliveNe j hj)]
    exact hc.keeps _ (by omega)

/-- A new id gets the first free slot, or a new one. -/
theorem termSlot_fresh (h : SlotInv b live) {id : Nat} (hid : id < b.slotOf.length)
    (hnew : id ∉ live) :
    ∃ slot b', termSlot b id = (slot, true, b') ∧ Claimed b b' id slot live := by
  have hzero : b.slotOf.getD id 0 = 0 := by
    by_contra hne
    exact hnew ((h.live_iff id).mp hne)
  unfold termSlot
  rw [hzero]
  cases hfree : b.freeSlots with
  | nil =>
      refine ⟨b.slots.length, _, rfl, ?_⟩
      simpa [hfree] using h.claim hid hnew (h.claimable_end hfree)
  | cons slot free =>
      exact ⟨slot, _, rfl, h.claim hid hnew (h.claimable_free hfree)⟩

/-! ## Releasing slots -/

theorem releaseTerm_inv (h : SlotInv b live) {id : Nat} (hid : id ∈ live) :
    SlotInv (releaseTerm b id) (live.erase id) ∧
      (∀ j ∈ live.erase id, liveTerm (releaseTerm b id) j = liveTerm b j) ∧
      releaseTerm b id = { b with slots := (releaseTerm b id).slots
                                  freeSlots := (releaseTerm b id).freeSlots
                                  slotOf := (releaseTerm b id).slotOf
                                  liveTermCount := (releaseTerm b id).liveTermCount } := by
  have hne := (h.live_iff id).mpr hid
  have hlt := h.lt_length hid
  have hb := h.bound id hid
  have herase : ∀ j, j ∈ live.erase id ↔ j ∈ live ∧ j ≠ id := by
    intro j
    rw [h.nodup.mem_erase_iff]
    tauto
  have hother : ∀ j, j ≠ id → (b.slotOf.set id 0).getD j 0 = b.slotOf.getD j 0 :=
    fun j hj => getD_set_ne (Ne.symm hj) _ _
  have hself : (b.slotOf.set id 0).getD id 0 = 0 := getD_set_self hlt _ _
  unfold releaseTerm
  rw [if_neg hne]
  refine ⟨⟨by simpa using h.size, h.nodup.erase _, ?_, ?_, ?_, ?_, ?_, ?_, ?_⟩, ?_, rfl⟩
  · intro j
    rw [herase]
    by_cases hj : j = id
    · subst hj
      simp only [hself]
      simp
    · simp only [hother j hj, h.live_iff j]
      tauto
  · intro j hj
    obtain ⟨hj, hjne⟩ := (herase j).mp hj
    simp only [hother j hjne, List.length_set]
    exact h.bound j hj
  · intro j hj i hi heq
    obtain ⟨hj, hjne⟩ := (herase j).mp hj
    obtain ⟨hi, hine⟩ := (herase i).mp hi
    simp only [hother j hjne, hother i hine] at heq
    exact h.inj j hj i hi heq
  · refine List.nodup_cons.mpr ⟨fun hmem => ?_, h.freeNodup⟩
    have := ((h.free_iff _).mp hmem).2 id hid
    omega
  · intro s
    rw [List.mem_cons, h.free_iff s, List.length_set]
    constructor
    · rintro (rfl | ⟨hs, hall⟩)
      · refine ⟨by omega, fun j hj heq => ?_⟩
        obtain ⟨hj, hjne⟩ := (herase j).mp hj
        simp only [hother j hjne] at heq
        exact hjne (h.inj j hj id hid (by omega))
      · refine ⟨hs, fun j hj => ?_⟩
        obtain ⟨hj, hjne⟩ := (herase j).mp hj
        simp only [hother j hjne]
        exact hall j hj
    · rintro ⟨hs, hall⟩
      by_cases heq : s = b.slotOf.getD id 0 - 1
      · exact Or.inl heq
      · refine Or.inr ⟨hs, fun j hj => ?_⟩
        by_cases hjid : j = id
        · subst hjid
          omega
        · have := hall j ((herase j).mpr ⟨hj, hjid⟩)
          simpa only [hother j hjid] using this
  · intro s hs
    rcases List.mem_cons.mp hs with rfl | hs
    · exact getD_set_self (by omega) _ _
    · have hunused := ((h.free_iff s).mp hs).2 id hid
      rw [getD_set_ne (by omega)]
      exact h.fresh s hs
  · have hlen := List.length_erase_of_mem hid
    have hcount := h.count
    simp only
    omega
  · intro j hj
    obtain ⟨hj, hjne⟩ := (herase j).mp hj
    have hjne0 := (h.live_iff j).mpr hj
    have hslots : b.slotOf.getD j 0 ≠ b.slotOf.getD id 0 := fun heq =>
      hjne (h.inj j hj id hid heq)
    simp only [liveTerm, hother j hjne]
    exact getD_set_ne (by omega) _ _

/-- Taking out live ids returns their terms and leaves the others. -/
theorem takeTerms_spec (ids : List Nat) {b : Buffer} {live : List Nat} (h : SlotInv b live)
    (hnodup : ids.Nodup) (hids : ∀ id ∈ ids, id ∈ live) :
    (takeTerms b ids).1 = ids.map (fun id => (id, liveTerm b id)) ∧
      SlotInv (takeTerms b ids).2 (live.filter fun id => id ∉ ids) ∧
      (takeTerms b ids).2 = { b with slots := (takeTerms b ids).2.slots
                                     freeSlots := (takeTerms b ids).2.freeSlots
                                     slotOf := (takeTerms b ids).2.slotOf
                                     liveTermCount := (takeTerms b ids).2.liveTermCount } := by
  induction ids generalizing b live with
  | nil =>
      refine ⟨rfl, ?_, rfl⟩
      have : live.filter (fun id => id ∉ ([] : List Nat)) = live := by simp
      rw [this]
      exact h
  | cons id ids ih =>
      obtain ⟨hnot, hnodup⟩ := List.nodup_cons.mp hnodup
      have hid := hids id (by simp)
      obtain ⟨hinv, hkeep, hsame⟩ := releaseTerm_inv h hid
      have hsub : ∀ j ∈ ids, j ∈ live.erase id := fun j hj =>
        (h.nodup.mem_erase_iff).mpr ⟨fun heq => hnot (heq ▸ hj), hids j (by simp [hj])⟩
      obtain ⟨hterms, hinv', hsame'⟩ := ih hinv hnodup hsub
      have hlist : (live.erase id).filter (fun j => j ∉ ids) =
          live.filter fun j => j ∉ id :: ids := by
        rw [h.nodup.erase_eq_filter, List.filter_filter]
        refine List.filter_congr fun j _ => ?_
        by_cases hj : j = id <;> by_cases hm : j ∈ ids <;> simp [hj, hm]
      rw [takeTerms, takeTerm]
      simp only
      refine ⟨?_, ?_, ?_⟩
      · rw [hterms, List.map_cons]
        refine congrArg₂ _ rfl (List.map_congr_left fun j hj => ?_)
        rw [hkeep j (hsub j hj)]
      · rw [← hlist]
        exact hinv'
      · rw [hsame', hsame]

end Snii.Writer.SpimiTermBuffer
