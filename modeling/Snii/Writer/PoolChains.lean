import Snii.Writer.CompactPostingPool

/-!
# What a chain of slices holds

`ChainAt p s rest bs w` says that the slices `s :: rest` are linked in the arena
`p`, hold the bytes `bs`, and that `w` is the position at which the next byte
goes.  Slices of a chain lie at rising offsets, so writes to one slice leave the
others alone; an append touches only the chain's own slices and memory that was
free before (`appendByte_grown`), and a cursor at the head returns the bytes in
order (`CursorAt.next`).
-/

namespace Snii.Writer.CompactPostingPool

open Snii.Lib.ByteReader

structure Slice where
  head : Nat
  level : Nat
deriving DecidableEq

namespace Slice

/-- One past the last payload byte: where the forward pointer is. -/
def stop (s : Slice) : Nat := s.head + sliceSize s.level

/-- Payload and pointer bytes of the slice. -/
def Owns (s : Slice) (a : Nat) : Prop := s.head ≤ a ∧ a < s.stop + 4

/-- The slice does not cross the end of a block. -/
def OneBlock (s : Slice) : Prop := s.head / kBlockSize = (s.stop + 3) / kBlockSize

end Slice

/-- The slices of a chain after an append that moved its writer from `w` to `w'`. -/
def grown (slices : List Slice) (w w' : SliceWriter) : List Slice :=
  if w.cur = w.sliceEnd then slices ++ [⟨w'.sliceEnd - sliceSize w'.level, w'.level⟩] else slices

/-- The memory from `off` on holds `bs`. -/
def Loads (mem : Nat → UInt8) (off : Nat) (bs : Bytes) : Prop :=
  ∀ i b, bs[i]? = some b → mem (off + i) = b

inductive ChainAt (p : Pool) : Slice → List Slice → Bytes → SliceWriter → Prop
  /-- The last slice is filled from its start and zero after that. -/
  | tail (s : Slice) (bs : Bytes) (level : s.level < 16) (fits : bs.length ≤ sliceSize s.level)
      (loads : Loads p.mem s.head bs)
      (zero : ∀ a, s.head + bs.length ≤ a → a < s.stop + 4 → p.mem a = 0) :
      ChainAt p s [] bs { cur := s.head + bs.length, sliceEnd := s.stop, level := s.level }
  /-- An earlier slice is full and points to the next one, at a higher offset. -/
  | link (s t : Slice) (rest : List Slice) (pre bs : Bytes) (w : SliceWriter)
      (full : pre.length = sliceSize s.level) (loads : Loads p.mem s.head pre)
      (ptr : p.readPtr s.stop = t.head) (level : t.level = nextLevel s.level)
      (above : s.stop + 4 ≤ t.head) (next : ChainAt p t rest bs w) :
      ChainAt p s (t :: rest) (pre ++ bs) w

/-- The addresses of a chain. -/
def Footprint (slices : List Slice) (a : Nat) : Prop := ∃ s ∈ slices, s.Owns a

namespace ChainAt

variable {p : Pool} {s : Slice} {rest : List Slice} {bs : Bytes} {w : SliceWriter}

/-- Reading the bytes needs at most as many steps as the write offset. -/
theorem head_add_length_le (h : ChainAt p s rest bs w) : s.head + bs.length ≤ w.cur := by
  induction h with
  | tail => exact Nat.le_refl _
  | link s t rest pre bs w full loads ptr level above next ih =>
      rw [List.length_append, full]
      rw [Slice.stop] at above
      omega

/-- The last slice of a chain, with the position in it. -/
theorem exists_last (h : ChainAt p s rest bs w) : ∃ t ∈ s :: rest, t.level = w.level ∧
    t.level < 16 ∧ t.stop = w.sliceEnd ∧ t.head ≤ w.cur ∧ w.cur ≤ w.sliceEnd := by
  induction h with
  | tail s bs level fits loads zero =>
      refine ⟨s, by simp, rfl, level, rfl, Nat.le_add_right _ _, ?_⟩
      simp only [Slice.stop]
      omega
  | link s t rest pre bs w full loads ptr level above next ih =>
      obtain ⟨u, hu, hspec⟩ := ih
      exact ⟨u, List.mem_cons_of_mem _ hu, hspec⟩

/-- Slices of a chain start at or after its head. -/
theorem head_le (h : ChainAt p s rest bs w) : ∀ t ∈ s :: rest, s.head ≤ t.head := by
  induction h with
  | tail => simp
  | link s t rest pre bs w full loads ptr level above next ih =>
      intro u hu
      rcases List.mem_cons.mp hu with rfl | hu
      · exact Nat.le_refl _
      · have := ih u hu
        rw [Slice.stop] at above
        omega

theorem head_le_cur (h : ChainAt p s rest bs w) : s.head ≤ w.cur := by
  have := h.head_add_length_le
  omega

/-- **Frame**: a chain depends on its own addresses only. -/
theorem frame {q : Pool} (h : ChainAt p s rest bs w)
    (hmem : ∀ a, Footprint (s :: rest) a → q.mem a = p.mem a) : ChainAt q s rest bs w := by
  induction h with
  | tail s bs level fits loads zero =>
      have hown : ∀ a, s.head ≤ a → a < s.stop + 4 → q.mem a = p.mem a := fun a h1 h2 =>
        hmem a ⟨s, by simp, h1, h2⟩
      refine ChainAt.tail s bs level fits ?_ ?_
      · intro i b hb
        have hi : i < bs.length := (List.getElem?_eq_some_iff.mp hb).1
        rw [hown _ (Nat.le_add_right _ _) (by rw [Slice.stop]; omega)]
        exact loads i b hb
      · intro a h1 h2
        rw [hown a (by omega) h2]
        exact zero a h1 h2
  | link s t rest pre bs w full loads ptr level above next ih =>
      have hown : ∀ a, s.head ≤ a → a < s.stop + 4 → q.mem a = p.mem a := fun a h1 h2 =>
        hmem a ⟨s, by simp, h1, h2⟩
      refine ChainAt.link s t rest pre bs w full ?_ ?_ level above ?_
      · intro i b hb
        have hi : i < pre.length := (List.getElem?_eq_some_iff.mp hb).1
        rw [hown _ (Nat.le_add_right _ _) (by rw [Slice.stop]; omega)]
        exact loads i b hb
      · rw [← ptr]
        refine Pool.readPtr_congr fun a h1 h2 => hown a ?_ h2
        rw [Slice.stop] at h1
        omega
      · refine ih fun a ha => hmem a ?_
        obtain ⟨u, hu, howns⟩ := ha
        exact ⟨u, List.mem_cons_of_mem _ hu, howns⟩

/-! ## Appending -/

/-- A byte written into the room left in the last slice. -/
theorem put {q : Pool} {b : UInt8} (h : ChainAt p s rest bs w) (hroom : w.cur < w.sliceEnd)
    (hb : q.mem w.cur = b)
    (hmem : ∀ a, Footprint (s :: rest) a → a ≠ w.cur → q.mem a = p.mem a) :
    ChainAt q s rest (bs ++ [b]) { w with cur := w.cur + 1 } := by
  induction h with
  | tail s bs level fits loads zero =>
      simp only at hb hroom hmem
      have hown : ∀ a, s.head ≤ a → a < s.stop + 4 → a ≠ s.head + bs.length →
          q.mem a = p.mem a := fun a h1 h2 h3 => hmem a ⟨s, by simp, h1, h2⟩ h3
      rw [Slice.stop] at hroom
      have htail := ChainAt.tail (p := q) s (bs ++ [b]) level (by simp; omega) ?_ ?_
      · simpa [Nat.add_assoc] using htail
      · intro i c hc
        rcases Nat.lt_or_ge i bs.length with hi | hi
        · rw [List.getElem?_append_left hi] at hc
          rw [hown _ (Nat.le_add_right _ _) (by rw [Slice.stop]; omega) (by omega)]
          exact loads i c hc
        · have hlen := (List.getElem?_eq_some_iff.mp hc).1
          simp only [List.length_append, List.length_singleton] at hlen
          obtain rfl : i = bs.length := by omega
          rw [List.getElem?_append_right (Nat.le_refl _)] at hc
          simp only [Nat.sub_self, List.getElem?_cons_zero, Option.some.injEq] at hc
          rw [← hc]
          exact hb
      · intro a h1 h2
        simp only [List.length_append, List.length_singleton] at h1
        rw [hown a (by omega) h2 (by omega)]
        exact zero a (by omega) h2
  | link s t rest pre bs w full loads ptr level above next ih =>
      have hcur := next.head_le_cur
      have hown : ∀ a, s.head ≤ a → a < s.stop + 4 → q.mem a = p.mem a := fun a h1 h2 =>
        hmem a ⟨s, by simp, h1, h2⟩ (by omega)
      rw [List.append_assoc]
      refine ChainAt.link s t rest pre (bs ++ [b]) _ full ?_ ?_ level above ?_
      · intro i c hc
        have hi : i < pre.length := (List.getElem?_eq_some_iff.mp hc).1
        rw [hown _ (Nat.le_add_right _ _) (by rw [Slice.stop]; omega)]
        exact loads i c hc
      · rw [← ptr]
        refine Pool.readPtr_congr fun a h1 h2 => hown a ?_ h2
        rw [Slice.stop] at h1
        omega
      · refine ih hroom hb fun a ha hne => hmem a ?_ hne
        obtain ⟨u, hu, howns⟩ := ha
        exact ⟨u, List.mem_cons_of_mem _ hu, howns⟩

/-- A full chain linked to a fresh, empty slice above it. -/
theorem extend {q : Pool} {t : Slice} (h : ChainAt p s rest bs w) (hfull : w.cur = w.sliceEnd)
    (ht : t.level = nextLevel w.level) (habove : ∀ a, Footprint (s :: rest) a → a < t.head)
    (hptr : q.readPtr w.sliceEnd = t.head) (hzero : ∀ a, t.Owns a → q.mem a = 0)
    (hmem : ∀ a, Footprint (s :: rest) a → (a < w.sliceEnd ∨ w.sliceEnd + 4 ≤ a) →
      q.mem a = p.mem a) :
    ChainAt q s (rest ++ [t]) bs { cur := t.head, sliceEnd := t.stop, level := t.level } := by
  induction h with
  | tail s bs level fits loads zero =>
      simp only [Slice.stop] at hfull hptr hmem ht
      have hlen : bs.length = sliceSize s.level := by omega
      have hlast : s.stop + 3 < t.head := by
        refine habove _ ⟨s, by simp, ?_, ?_⟩
        · rw [Slice.stop]
          omega
        · omega
      have htail : ChainAt q t [] [] { cur := t.head, sliceEnd := t.stop, level := t.level } := by
        have htl := nextLevel_lt s.level
        refine ChainAt.tail (p := q) t [] (by omega) (by simp) (by intro i b hb; simp at hb) ?_
        intro a h1 h2
        exact hzero a ⟨by simpa using h1, h2⟩
      have hlink := ChainAt.link (p := q) s t [] bs [] _ hlen ?_ ?_ ht (by omega) htail
      · simpa using hlink
      · intro i b hb
        have hi : i < bs.length := (List.getElem?_eq_some_iff.mp hb).1
        rw [hmem _ ⟨s, by simp, Nat.le_add_right _ _, by rw [Slice.stop]; omega⟩ (by omega)]
        exact loads i b hb
      · exact hptr
  | link s u rest pre bs w full loads ptr level above next ih =>
      have hlast := next.exists_last
      obtain ⟨x, hx, hxl, _, hxs, _⟩ := hlast
      have hxh := next.head_le x hx
      have hus : u.head ≤ w.sliceEnd := by
        rw [← hxs, Slice.stop]
        omega
      have hown : ∀ a, s.head ≤ a → a < s.stop + 4 → q.mem a = p.mem a := fun a h1 h2 =>
        hmem a ⟨s, by simp, h1, h2⟩ (by omega)
      rw [List.cons_append]
      refine ChainAt.link s u (rest ++ [t]) pre bs _ full ?_ ?_ level above ?_
      · intro i b hb
        have hi : i < pre.length := (List.getElem?_eq_some_iff.mp hb).1
        rw [hown _ (Nat.le_add_right _ _) (by rw [Slice.stop]; omega)]
        exact loads i b hb
      · rw [← ptr]
        refine Pool.readPtr_congr fun a h1 h2 => hown a ?_ h2
        rw [Slice.stop] at h1
        omega
      · refine ih hfull ht ?_ hptr ?_
        · intro a ha
          obtain ⟨x, hx, howns⟩ := ha
          exact habove a ⟨x, List.mem_cons_of_mem _ hx, howns⟩
        · intro a ha hout
          obtain ⟨x, hx, howns⟩ := ha
          exact hmem a ⟨x, List.mem_cons_of_mem _ hx, howns⟩ hout

end ChainAt

/-! ## Chains of an arena -/

/-- A chain that starts at `head`, inside the allocated part of the arena. -/
structure Holds (p : Pool) (head : Nat) (slices : List Slice) (bs : Bytes) (w : SliceWriter) :
    Prop where
  chain : ∃ rest, slices = ⟨head, 0⟩ :: rest ∧ ChainAt p ⟨head, 0⟩ rest bs w
  inside : ∀ a, Footprint slices a → a < p.nextOffset

/-- What an operation on one chain does to the arena: at most `n` new blocks,
memory changed only in the chain's slices or above the old bump pointer. -/
structure Extends (n : Nat) (p p' : Pool) (slices slices' : List Slice) : Prop where
  wf : p'.WF
  grows : p.nextOffset ≤ p'.nextOffset
  fresh : ∀ a, Footprint slices' a → Footprint slices a ∨ p.nextOffset ≤ a
  same : ∀ a, a < p.nextOffset → ¬ Footprint slices a → p'.mem a = p.mem a
  blocks : p'.nBlocks ≤ p.nBlocks + n

theorem Extends.trans {m n : Nat} {p p' p'' : Pool} {l l' l'' : List Slice}
    (h : Extends m p p' l l') (h' : Extends n p' p'' l' l'') : Extends (m + n) p p'' l l'' where
  wf := h'.wf
  grows := Nat.le_trans h.grows h'.grows
  fresh := by
    intro a ha
    rcases h'.fresh a ha with hold | hnew
    · exact h.fresh a hold
    · exact Or.inr (Nat.le_trans h.grows hnew)
  same := by
    intro a hlt hnot
    have hnot' : ¬ Footprint l' a := by
      intro hown
      rcases h.fresh a hown with hold | hnew
      · exact hnot hold
      · omega
    rw [h'.same a (Nat.lt_of_lt_of_le hlt h.grows) hnot', h.same a hlt hnot]
  blocks := by
    have h1 := h.blocks
    have h2 := h'.blocks
    omega

/-- **Frame for chains**: a chain disjoint from the one worked on is kept. -/
theorem Holds.frame {n head : Nat} {p p' : Pool} {slices l l' : List Slice} {bs : Bytes}
    {w : SliceWriter} (h : Holds p head slices bs w) (hext : Extends n p p' l l')
    (hdisj : ∀ a, Footprint slices a → ¬ Footprint l a) : Holds p' head slices bs w := by
  obtain ⟨⟨rest, rfl, hchain⟩, hin⟩ := h
  refine ⟨⟨rest, rfl, ?_⟩, fun a ha => Nat.lt_of_lt_of_le (hin a ha) hext.grows⟩
  exact hchain.frame fun a ha => hext.same a (hin a ha) (hdisj a ha)

/-- A freshly allocated slice is zero up to its last pointer byte. -/
theorem Pool.allocSlice_spec {p p' : Pool} {level first sliceEnd : Nat} (hp : p.WF)
    (hlevel : level < 16) (h : p.allocSlice level = some (p', first, sliceEnd)) :
    p'.WF ∧ sliceEnd = first + sliceSize level ∧ p.nextOffset ≤ first ∧
      sliceEnd + 4 = p'.nextOffset ∧ sliceEnd + 4 < 2 ^ 32 ∧ p'.nBlocks ≤ p.nBlocks + 1 ∧
      (∀ a, a < p.nextOffset → p'.mem a = p.mem a) ∧
      ∀ a, first ≤ a → a < sliceEnd + 4 → p'.mem a = 0 := by
  have hpos := sliceSize_pos hlevel
  have hle := sliceSize_le level
  unfold allocSlice at h
  cases hrun : p.allocRun (sliceSize level + kPtrBytes) with
  | none => simp [hrun] at h
  | some r =>
      obtain ⟨q, off⟩ := r
      simp only [hrun, Option.bind_eq_bind, Option.bind_some, Option.some.injEq,
        Prod.mk.injEq] at h
      obtain ⟨rfl, rfl, rfl⟩ := h
      obtain ⟨hwf, hmem, hge, hend, hlt, hblocks, _, _⟩ :=
        allocRun_spec hp (by omega) (by simp only [kPtrBytes, kBlockSize]; omega) hrun
      simp only [kPtrBytes] at hend hlt
      have hsame : ∀ a, a < off + sliceSize level ∨ off + sliceSize level + 4 ≤ a →
          store q.mem (off + sliceSize level) [0, 0, 0, 0] a = p.mem a := by
        intro a ha
        rw [store, if_neg (by simp only [List.length_cons, List.length_nil]; omega), hmem]
      refine ⟨⟨hwf.inBlocks, hwf.tailBlock, ?_⟩, rfl, hge, by simp only; omega, by omega, hblocks,
        fun a ha => hsame a (by omega), ?_⟩
      · intro a ha
        simp only at ha ⊢
        rw [hsame a (by omega)]
        exact hp.zeroAbove a (by omega)
      · intro a h1 h2
        simp only
        rcases Nat.lt_or_ge a (off + sliceSize level) with hlow | hhigh
        · rw [hsame a (Or.inl hlow)]
          exact hp.zeroAbove a (by omega)
        · obtain ⟨i, rfl⟩ := Nat.exists_eq_add_of_le hhigh
          have hi : i < 4 := by omega
          rw [store_at (by simpa using hi)]
          interval_cases i <;> rfl

theorem Pool.allocSlice_oneBlock {p p' : Pool} {level first sliceEnd : Nat} (hp : p.WF)
    (h : p.allocSlice level = some (p', first, sliceEnd)) : (Slice.mk first level).OneBlock := by
  have hle := sliceSize_le level
  unfold allocSlice at h
  cases hrun : p.allocRun (sliceSize level + kPtrBytes) with
  | none => simp [hrun] at h
  | some r =>
      obtain ⟨q, off⟩ := r
      simp only [hrun, Option.bind_eq_bind, Option.bind_some, Option.some.injEq,
        Prod.mk.injEq] at h
      obtain ⟨-, rfl, -⟩ := h
      obtain ⟨-, -, -, -, -, -, -, hblock⟩ := allocRun_spec hp (by simp only [kPtrBytes]; omega)
        (by simp only [kPtrBytes, kBlockSize]; omega) hrun
      exact hblock

theorem Pool.allocSlice_isSome {p : Pool} {level : Nat} (hp : p.WF)
    (hroom : p.nBlocks < maxBlocks) : (p.allocSlice level).isSome := by
  have hle := sliceSize_le level
  have hrun : (p.allocRun (sliceSize level + kPtrBytes)).isSome :=
    allocRun_isSome hp (by simp only [kPtrBytes, kBlockSize]; omega) hroom
  obtain ⟨r, hr⟩ := Option.isSome_iff_exists.mp hrun
  simp [allocSlice, hr]

theorem startChain_spec {p p' : Pool} {w : SliceWriter} {head : Nat} (hp : p.WF)
    (h : startChain p = some (p', w, head)) :
    Holds p' head [⟨head, 0⟩] [] w ∧ Extends 1 p p' [] [⟨head, 0⟩] ∧ head < 2 ^ 32 - 1 := by
  unfold startChain at h
  cases halloc : p.allocSlice 0 with
  | none => simp [halloc] at h
  | some r =>
      obtain ⟨q, first, sliceEnd⟩ := r
      simp only [halloc, Option.bind_eq_bind, Option.bind_some, Option.some.injEq,
        Prod.mk.injEq] at h
      obtain ⟨rfl, rfl, rfl⟩ := h
      obtain ⟨hwf, hend, hge, hnext, hlt, hblocks, hsame, hzero⟩ :=
        Pool.allocSlice_spec hp (by omega) halloc
      have hstop : (Slice.mk first 0).stop = sliceEnd := by rw [hend]; rfl
      have hchain : ChainAt q ⟨first, 0⟩ []
          [] { cur := first, sliceEnd := sliceEnd, level := 0 } := by
        have htail := ChainAt.tail (p := q) ⟨first, 0⟩ [] (by simp) (by simp)
          (by intro i b hb; simp at hb) (by rw [hstop]; exact hzero)
        simpa [hstop] using htail
      have hown : ∀ a, Footprint [⟨first, 0⟩] a → first ≤ a ∧ a < sliceEnd + 4 := by
        rintro a ⟨s, hs, hlo, hhi⟩
        obtain rfl := List.mem_singleton.mp hs
        rw [hstop] at hhi
        exact ⟨hlo, hhi⟩
      refine ⟨⟨⟨[], rfl, hchain⟩, fun a ha => ?_⟩, ⟨hwf, by omega, ?_, ?_, hblocks⟩, by omega⟩
      · have := hown a ha
        omega
      · intro a ha
        have := hown a ha
        exact Or.inr (by omega)
      · intro a ha _
        exact hsame a ha

/-- Room for one more byte, on the same or a fresh slice. -/
private theorem growChain_spec {p p' : Pool} {w w' : SliceWriter} {head : Nat}
    {slices : List Slice} {bs : Bytes} (hp : p.WF) (h : Holds p head slices bs w)
    (hgrow : growChain p w = some (p', w')) :
    ∃ slices', (Holds p' head slices' bs w' ∧ Extends 1 p p' slices slices') ∧
      w'.cur < w'.sliceEnd ∧ slices' = grown slices w w' ∧
      ∀ s ∈ slices', s ∈ slices ∨ s.OneBlock := by
  obtain ⟨⟨rest, rfl, hchain⟩, hin⟩ := h
  obtain ⟨t, ht, htl, htlt, hts, htc, hce⟩ := hchain.exists_last
  unfold growChain at hgrow
  by_cases hfull : w.cur = w.sliceEnd
  · rw [if_pos hfull] at hgrow
    cases halloc : p.allocSlice (nextLevel w.level) with
    | none => simp [halloc] at hgrow
    | some r =>
        obtain ⟨q, first, sliceEnd⟩ := r
        simp only [halloc, Option.bind_eq_bind, Option.bind_some, Option.some.injEq,
          Prod.mk.injEq] at hgrow
        obtain ⟨rfl, rfl⟩ := hgrow
        have hlevel := nextLevel_lt w.level
        have hpos := sliceSize_pos hlevel
        obtain ⟨hwf, hend, hge, hnext, hlt, hblocks, hsame, hzero⟩ :=
          Pool.allocSlice_spec hp hlevel halloc
        have hlast : w.sliceEnd + 3 < p.nextOffset := by
          refine hin _ ⟨t, ht, ?_, ?_⟩
          · omega
          · omega
        have hstop : (Slice.mk first (nextLevel w.level)).stop = sliceEnd := by rw [hend]; rfl
        have hout : ∀ a, a < w.sliceEnd ∨ w.sliceEnd + 4 ≤ a →
            (q.writePtr w.sliceEnd first).mem a = q.mem a := by
          intro a ha
          simp only [Pool.writePtr, Pool.store, length_leBytes]
          rw [if_neg (by omega)]
        have hptr : (q.writePtr w.sliceEnd first).readPtr w.sliceEnd = first := by
          refine Pool.readPtr_of_store (by omega) fun i hi => ?_
          exact Pool.store_at (by simpa using hi)
        have hchain' := hchain.extend (q := q.writePtr w.sliceEnd first)
          (t := ⟨first, nextLevel w.level⟩) hfull rfl
          (fun a ha => Nat.lt_of_lt_of_le (hin a ha) hge) hptr
          (fun a ha => by
            rw [hstop.symm] at hnext hlt
            have h1 := ha.1
            have h2 := ha.2
            simp only at h1
            rw [hstop] at h2
            rw [hout a (by omega)]
            exact hzero a h1 h2)
          (fun a ha hrange => by rw [hout a hrange]; exact hsame a (hin a ha))
        have hown : ∀ a, Footprint (⟨head, 0⟩ :: (rest ++ [⟨first, nextLevel w.level⟩])) a →
            Footprint (⟨head, 0⟩ :: rest) a ∨ (first ≤ a ∧ a < sliceEnd + 4) := by
          rintro a ⟨s, hs, hown⟩
          rw [← List.cons_append] at hs
          rcases List.mem_append.mp hs with hs | hs
          · exact Or.inl ⟨s, hs, hown⟩
          · obtain rfl := List.mem_singleton.mp hs
            have h2 := hown.2
            rw [hstop] at h2
            exact Or.inr ⟨hown.1, h2⟩
        refine ⟨⟨head, 0⟩ :: (rest ++ [⟨first, nextLevel w.level⟩]),
          ⟨⟨⟨rest ++ [⟨first, nextLevel w.level⟩], rfl, ?_⟩, ?_⟩, ⟨?_, ?_, ?_, ?_, hblocks⟩⟩, ?_,
          ?_, ?_⟩
        · rw [hstop] at hchain'
          exact hchain'
        · intro a ha
          show a < q.nextOffset
          rcases hown a ha with hold | hnew
          · have := hin a hold
            omega
          · omega
        · refine ⟨hwf.inBlocks, hwf.tailBlock, fun a (ha : q.nextOffset ≤ a) => ?_⟩
          rw [hout a (by omega)]
          exact hwf.zeroAbove a ha
        · show p.nextOffset ≤ q.nextOffset
          omega
        · intro a ha
          rcases hown a ha with hold | hnew
          · exact Or.inl hold
          · exact Or.inr (by omega)
        · intro a ha hnot
          have hrange : a < w.sliceEnd ∨ w.sliceEnd + 4 ≤ a := by
            by_contra hin'
            exact hnot ⟨t, ht, by omega, by omega⟩
          rw [hout a hrange]
          exact hsame a ha
        · simp only
          omega
        · rw [grown, if_pos hfull, hend]
          simp
        · intro s hs
          rw [← List.cons_append] at hs
          rcases List.mem_append.mp hs with hs | hs
          · exact Or.inl hs
          · obtain rfl := List.mem_singleton.mp hs
            exact Or.inr (Pool.allocSlice_oneBlock hp halloc)
  · rw [if_neg hfull] at hgrow
    simp only [Option.some.injEq, Prod.mk.injEq] at hgrow
    obtain ⟨rfl, rfl⟩ := hgrow
    exact ⟨_, ⟨⟨⟨rest, rfl, hchain⟩, hin⟩,
      ⟨hp, Nat.le_refl _, fun a ha => Or.inl ha, fun _ _ _ => rfl, by omega⟩⟩, by omega,
      by rw [grown, if_neg hfull], fun s hs => Or.inl hs⟩

/-- **Append**: the chain holds one byte more and nothing else changed.  A slice it
gained lies in one block. -/
theorem appendByte_grown {p p' : Pool} {w w' : SliceWriter} {head : Nat} {slices : List Slice}
    {bs : Bytes} {b : UInt8} (hp : p.WF) (h : Holds p head slices bs w)
    (happ : appendByte p w b = some (p', w')) :
    (Holds p' head (grown slices w w') (bs ++ [b]) w' ∧
      Extends 1 p p' slices (grown slices w w')) ∧
      ∀ s ∈ grown slices w w', s ∈ slices ∨ s.OneBlock := by
  unfold appendByte at happ
  cases hgrow : growChain p w with
  | none => simp [hgrow] at happ
  | some r =>
      obtain ⟨q, v⟩ := r
      simp only [hgrow, Option.bind_eq_bind, Option.bind_some, Option.some.injEq,
        Prod.mk.injEq] at happ
      obtain ⟨rfl, rfl⟩ := happ
      obtain ⟨slices', ⟨⟨⟨rest, hslices, hchain⟩, hin⟩, hext⟩, hroom, hgrown, hblock⟩ :=
        growChain_spec hp h hgrow
      have hsame : grown slices w { v with cur := v.cur + 1 } = ⟨head, 0⟩ :: rest := by
        rw [← hslices, hgrown]
        rfl
      rw [hsame]
      subst hslices
      obtain ⟨t, ht, _, _, hts, htc, _⟩ := hchain.exists_last
      have hcurIn : Footprint (⟨head, 0⟩ :: rest) v.cur := ⟨t, ht, htc, by omega⟩
      have hother : ∀ a, a ≠ v.cur → Pool.store q.mem v.cur [b] a = q.mem a := by
        intro a hne
        rw [Pool.store, if_neg (by simp only [List.length_singleton]; omega)]
      refine ⟨⟨⟨⟨rest, rfl, ?_⟩, fun a ha => hin a ha⟩,
        ⟨⟨hext.wf.inBlocks, hext.wf.tailBlock, ?_⟩, hext.grows, hext.fresh, ?_, hext.blocks⟩⟩, hblock⟩
      · refine hchain.put hroom ?_ fun a _ hne => hother a hne
        simp [Pool.store]
      · intro a (ha : q.nextOffset ≤ a)
        have := hin _ hcurIn
        show Pool.store q.mem v.cur [b] a = 0
        rw [hother a (by omega)]
        exact hext.wf.zeroAbove a ha
      · intro a ha hnot
        have hne : a ≠ v.cur := by
          rintro rfl
          rcases hext.fresh _ hcurIn with hold | hnew
          · exact hnot hold
          · omega
        show Pool.store q.mem v.cur [b] a = p.mem a
        rw [hother a hne]
        exact hext.same a ha hnot

theorem appendByte_spec {p p' : Pool} {w w' : SliceWriter} {head : Nat} {slices : List Slice}
    {bs : Bytes} {b : UInt8} (hp : p.WF) (h : Holds p head slices bs w)
    (happ : appendByte p w b = some (p', w')) :
    ∃ slices', Holds p' head slices' (bs ++ [b]) w' ∧ Extends 1 p p' slices slices' :=
  ⟨_, (appendByte_grown hp h happ).1⟩

theorem appendByte_isSome {p : Pool} {w : SliceWriter} (hp : p.WF)
    (hroom : p.nBlocks < maxBlocks) (b : UInt8) :
    (appendByte p w b).isSome := by
  have hgrow : (growChain p w).isSome := by
    unfold growChain
    split
    · have halloc : (p.allocSlice (nextLevel w.level)).isSome :=
        Pool.allocSlice_isSome hp hroom
      obtain ⟨r, hr⟩ := Option.isSome_iff_exists.mp halloc
      simp [hr]
    · rfl
  obtain ⟨r, hr⟩ := Option.isSome_iff_exists.mp hgrow
  simp [appendByte, hr]

/-! ## Offsets in 32 bits -/

theorem Pool.allocRun_nextOffset_lt {p p' : Pool} {bytes off : Nat}
    (h : p.allocRun bytes = some (p', off)) : p'.nextOffset < 2 ^ 32 := by
  unfold allocRun at h
  by_cases hneed : p.NeedBlock bytes
  · simp only [if_pos hneed, Option.ite_none_left_eq_some, Option.some.injEq, Prod.mk.injEq] at h
    obtain ⟨hfit, rfl, -⟩ := h
    show p.nBlocks * kBlockSize + bytes < 2 ^ 32
    omega
  · simp only [if_neg hneed, Option.ite_none_left_eq_some, Option.some.injEq, Prod.mk.injEq] at h
    obtain ⟨hfit, rfl, -⟩ := h
    show p.nextOffset + bytes < 2 ^ 32
    omega

theorem Pool.allocSlice_nextOffset_lt {p p' : Pool} {level first sliceEnd : Nat}
    (h : p.allocSlice level = some (p', first, sliceEnd)) : p'.nextOffset < 2 ^ 32 := by
  unfold allocSlice at h
  simp only [Option.bind_eq_bind, Option.bind_eq_some_iff] at h
  obtain ⟨⟨q, off⟩, hrun, hq⟩ := h
  have hoff := Pool.allocRun_nextOffset_lt hrun
  cases hq
  exact hoff

theorem startChain_nextOffset_lt {p p' : Pool} {w : SliceWriter} {head : Nat}
    (h : startChain p = some (p', w, head)) : p'.nextOffset < 2 ^ 32 := by
  unfold startChain at h
  simp only [Option.bind_eq_bind, Option.bind_eq_some_iff] at h
  obtain ⟨⟨q, first, sliceEnd⟩, hslice, hq⟩ := h
  cases hq
  exact Pool.allocSlice_nextOffset_lt hslice

theorem appendByte_nextOffset_lt {p p' : Pool} {w w' : SliceWriter} {x : UInt8}
    (hp : p.nextOffset < 2 ^ 32) (h : appendByte p w x = some (p', w')) :
    p'.nextOffset < 2 ^ 32 := by
  unfold appendByte growChain at h
  simp only [Option.bind_eq_bind, Option.bind_eq_some_iff] at h
  obtain ⟨⟨q, v⟩, hgrow, hq⟩ := h
  have hoff : q.nextOffset < 2 ^ 32 := by
    split at hgrow
    · rw [Option.bind_eq_some_iff] at hgrow
      obtain ⟨⟨r, first, sliceEnd⟩, hslice, hr⟩ := hgrow
      have hlt := Pool.allocSlice_nextOffset_lt hslice
      cases hr
      exact hlt
    · cases hgrow
      exact hp
  cases hq
  exact hoff

/-! ## Cursors -/

/-- The cursor's next reads return `bs`. -/
def CursorAt (p : Pool) (c : Cursor) (bs : Bytes) : Prop :=
  ∃ s rest pre w, ChainAt p s rest (pre ++ bs) w ∧ pre.length ≤ sliceSize s.level ∧
    c.cur = s.head + pre.length ∧ c.sliceEnd = s.stop ∧ c.level = s.level ∧
    bs.length ≤ c.budget

theorem Holds.cursorAt {p : Pool} {head budget : Nat} {slices : List Slice} {bs : Bytes}
    {w : SliceWriter} (h : Holds p head slices bs w) (hb : bs.length ≤ budget) :
    CursorAt p (cursor head budget) bs := by
  obtain ⟨⟨rest, _, hchain⟩, _⟩ := h
  exact ⟨⟨head, 0⟩, rest, [], w, by simpa using hchain, by simp, rfl, rfl, rfl, hb⟩

/-- The write offset is enough of a budget for the whole chain. -/
theorem Holds.length_le_cur {p : Pool} {head : Nat} {slices : List Slice} {bs : Bytes}
    {w : SliceWriter} (h : Holds p head slices bs w) : bs.length ≤ w.cur := by
  obtain ⟨⟨rest, _, hchain⟩, _⟩ := h
  have := hchain.head_add_length_le
  omega

/-- The byte at an offset inside the first slice. -/
private theorem take_spec {p : Pool} {c : Cursor} {s : Slice} {rest : List Slice} {pre bs : Bytes}
    {b : UInt8} {w : SliceWriter} (h : ChainAt p s rest (pre ++ b :: bs) w)
    (hroom : pre.length < sliceSize s.level) (hcur : c.cur = s.head + pre.length)
    (hend : c.sliceEnd = s.stop) (hlevel : c.level = s.level)
    (hbudget : (b :: bs).length ≤ c.budget) :
    (Cursor.take p c).1 = b ∧ CursorAt p (Cursor.take p c).2 bs := by
  have hbyte : p.mem (s.head + pre.length) = b := by
    generalize hfull : pre ++ b :: bs = full at h
    have hget : full[pre.length]? = some b := by rw [← hfull]; simp
    cases h with
    | tail _ _ _ _ loads _ => exact loads _ _ hget
    | link _ t rest' pre' bs' _ full' loads _ _ _ _ =>
        refine loads _ _ ?_
        rw [List.getElem?_append_left (by omega)] at hget
        exact hget
  refine ⟨by simp [Cursor.take, hcur, hbyte], s, rest, pre ++ [b], w, by simpa using h, ?_, ?_,
    hend, hlevel, ?_⟩
  · simp only [List.length_append, List.length_singleton]
    omega
  · simp only [Cursor.take, hcur, List.length_append, List.length_singleton]
    omega
  · simp only [Cursor.take, List.length_cons] at hbudget ⊢
    omega

/-- **Read**: a cursor returns the next byte of its chain. -/
theorem CursorAt.next {p : Pool} {c : Cursor} {b : UInt8} {bs : Bytes}
    (h : CursorAt p c (b :: bs)) : (c.next p).1 = b ∧ CursorAt p (c.next p).2 bs := by
  obtain ⟨s, rest, pre, w, hchain, hpre, hcur, hend, hlevel, hbudget⟩ := h
  have hb0 : c.budget ≠ 0 := by
    simp only [List.length_cons] at hbudget
    omega
  unfold Cursor.next
  rw [if_neg hb0]
  by_cases hfull : c.cur = c.sliceEnd
  · -- the slice is used up, so the chain goes on in the one it points to
    rw [if_pos hfull]
    have hsize : pre.length = sliceSize s.level := by
      rw [hcur, hend, Slice.stop] at hfull
      omega
    generalize hall : pre ++ b :: bs = full at hchain
    cases hchain with
    | tail _ _ _ fits _ _ =>
        rw [← hall, List.length_append, List.length_cons] at fits
        omega
    | link _ t rest' pre' bs' _ full' loads ptr level above next =>
        obtain ⟨hpre', hbs'⟩ := List.append_inj hall (by omega)
        have hlt := Nat.lt_of_lt_of_le (Nat.lt_add_of_pos_right (k := 4) (by omega)) above
        have hne : p.readPtr c.sliceEnd ≠ 0 := by
          rw [hend, ptr]
          omega
        have hsz : 0 < sliceSize t.level := by
          rw [level]
          exact sliceSize_pos (nextLevel_lt _)
        simp only [if_neg hne]
        have hchain' : ChainAt p t rest' ([] ++ b :: bs) w := by
          rw [List.nil_append, hbs']
          exact next
        refine take_spec hchain' (by simpa using hsz) ?_ ?_ ?_ hbudget
        · simp only [hend, ptr, List.length_nil, Nat.add_zero]
        · simp only [hend, ptr, hlevel, ← level]
          rfl
        · simp only [hlevel, ← level]
  · rw [if_neg hfull]
    refine take_spec hchain ?_ hcur hend hlevel hbudget
    rw [hcur, hend, Slice.stop] at hfull
    omega

end Snii.Writer.CompactPostingPool
