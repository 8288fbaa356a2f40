import Snii.Lib.Grouping
import Snii.Writer.PoolChains
import Snii.Writer.SpimiTermBuffer

/-!
# A term's chain and the postings read back from it

`TermHolds` ties a term's accumulator to the tokens it received: its chain holds
their tagged encoding.  Appending a token keeps this and touches only the term's
own slices and free memory; decoding the chain, in one pass, through the pump or
with the reorder by docid, returns the grouping of the tokens.
-/

namespace Snii.Writer.SpimiTermBuffer

open Snii.Lib.ByteReader Snii.Lib.Grouping Snii.Encoding.Varint
  Snii.Writer.CompactPostingPool Snii.Writer.SpillRunCodec

/-! ## The tagged encoding -/

/-- A token of one term: docid and position. -/
abbrev Tok := Nat × Nat

/-- Docids and positions are 32-bit values. -/
def Tok.Valid (k : Tok) : Prop := k.1 < 2 ^ 32 ∧ k.2 < 2 ^ 32

/-- The docid of the last token. -/
def lastDoc (toks : List Tok) : Option Nat := toks.getLast?.map Prod.fst

/-- The entry of a token that follows a document `prev`. -/
def encodeTok (hasPositions : Bool) (prev : Option Nat) (k : Tok) : Bytes :=
  let newDoc := decide (prev ≠ some k.1)
  encodeVarint64 (if hasPositions then 2 * k.2 + newDoc.toNat else newDoc.toNat) ++
    if newDoc then encodeVarint64 (zigzagEncode (k.1 - (prev.getD 0 : Nat))) else []

def encodeToks (hasPositions : Bool) : Option Nat → List Tok → Bytes
  | _, [] => []
  | prev, k :: toks => encodeTok hasPositions prev k ++ encodeToks hasPositions (some k.1) toks

/-- A token more is encoded behind the others, relative to the last document. -/
theorem encodeToks_append (hasPositions : Bool) (prev : Option Nat) (toks : List Tok) (k : Tok) :
    encodeToks hasPositions prev (toks ++ [k]) =
      encodeToks hasPositions prev toks ++ encodeTok hasPositions ((lastDoc toks).or prev) k := by
  induction toks generalizing prev with
  | nil => simp [encodeToks, lastDoc]
  | cons j toks ih =>
      have hlast : (lastDoc toks).or (some j.1) = (lastDoc (j :: toks)).or prev := by
        rcases List.eq_nil_or_concat toks with rfl | ⟨init, last, rfl⟩
        · simp [lastDoc]
        · rw [List.concat_eq_append, ← List.cons_append]
          simp only [lastDoc, List.getLast?_append, List.getLast?_singleton, Option.some_or,
            Option.map_some]
      rw [List.cons_append, encodeToks, ih, encodeToks, List.append_assoc, hlast]

/-- A token takes 20 bytes at most. -/
theorem encodeTok_length_le (hasPositions : Bool) (prev : Option Nat) (k : Tok) :
    (encodeTok hasPositions prev k).length ≤ 20 := by
  unfold encodeTok
  rw [List.length_append]
  have htag := encodeVarint64_length_le
    (if hasPositions then 2 * k.2 + (decide (prev ≠ some k.1)).toNat
      else (decide (prev ≠ some k.1)).toNat)
  have hdelta : (if decide (prev ≠ some k.1) then
      encodeVarint64 (zigzagEncode (k.1 - (prev.getD 0 : Nat))) else []).length ≤ 10 := by
    by_cases h : decide (prev ≠ some k.1) = true
    · rw [if_pos h]
      exact encodeVarint64_length_le _
    · rw [if_neg h]
      simp
  exact Nat.add_le_add htag hdelta

/-! ## Appending to a term -/

/-- The bytes of a term's chain; a term without bytes has no chain. -/
def TermBytes (p : Pool) (t : Term) (slices : List Slice) (bs : Bytes) : Prop :=
  (bs = [] ∧ t.head = kNoChain ∧ slices = []) ∨
    (t.head ≠ kNoChain ∧ Holds p t.head slices bs t.w)

/-- A term's bytes are not touched by what another term's chain takes. -/
theorem TermBytes.frame {n : Nat} {p p' : Pool} {t : Term} {slices l l' : List Slice} {bs : Bytes}
    (h : TermBytes p t slices bs) (hext : Extends n p p' l l')
    (hdisj : ∀ a, Footprint slices a → ¬ Footprint l a) : TermBytes p' t slices bs := by
  rcases h with h | ⟨hne, hholds⟩
  · exact Or.inl h
  · exact Or.inr ⟨hne, hholds.frame hext hdisj⟩

theorem TermBytes.inside {p : Pool} {t : Term} {slices : List Slice} {bs : Bytes}
    (h : TermBytes p t slices bs) : ∀ a, Footprint slices a → a < p.nextOffset := by
  rcases h with ⟨_, _, rfl⟩ | ⟨_, hholds⟩
  · rintro a ⟨s, hs, _⟩
    simp at hs
  · exact hholds.inside

/-- **One byte** goes to the end of the chain. -/
theorem putByte_spec {p p' : Pool} {t t' : Term} {slices : List Slice} {bs : Bytes} {x : UInt8}
    (hp : p.WF) (h : TermBytes p t slices bs) (hput : putByte p t x = some (p', t')) :
    ∃ slices', TermBytes p' t' slices' (bs ++ [x]) ∧ Extends 2 p p' slices slices' ∧
      t' = { t with head := t'.head, w := t'.w } := by
  unfold putByte at hput
  rcases h with ⟨rfl, hhead, rfl⟩ | ⟨hne, hholds⟩
  · rw [if_pos hhead] at hput
    cases hstart : startChain p with
    | none => simp [hstart] at hput
    | some r =>
        obtain ⟨q, w, head⟩ := r
        obtain ⟨hh, hext, hlt⟩ := startChain_spec hp hstart
        simp only [hstart, Option.map_eq_some_iff, Prod.mk.injEq] at hput
        obtain ⟨⟨q', w'⟩, happ, rfl, rfl⟩ := hput
        obtain ⟨slices', hh', hext'⟩ := appendByte_spec hext.wf hh happ
        refine ⟨slices', Or.inr ⟨?_, hh'⟩, hext.trans hext', rfl⟩
        simp only [kNoChain]
        omega
  · rw [if_neg hne] at hput
    simp only [Option.map_eq_some_iff, Prod.mk.injEq] at hput
    obtain ⟨⟨q', w'⟩, happ, rfl, rfl⟩ := hput
    obtain ⟨slices', hh', hext'⟩ := appendByte_spec hp hholds happ
    exact ⟨slices', Or.inr ⟨hne, hh'⟩,
      ⟨hext'.wf, hext'.grows, hext'.fresh, hext'.same, Nat.le_succ_of_le hext'.blocks⟩, rfl⟩

theorem Extends.refl {p : Pool} (hp : p.WF) (slices : List Slice) :
    Extends 0 p p slices slices :=
  ⟨hp, Nat.le_refl _, fun _ ha => Or.inl ha, fun _ _ _ => rfl, Nat.le_refl _⟩

/-- **Bytes** go to the end of the chain. -/
theorem putBytes_spec {p p' : Pool} {t t' : Term} {slices : List Slice} {bs xs : Bytes}
    (hp : p.WF) (h : TermBytes p t slices bs) (hput : putBytes p t xs = some (p', t')) :
    ∃ slices', TermBytes p' t' slices' (bs ++ xs) ∧ Extends (2 * xs.length) p p' slices slices' ∧
      t' = { t with head := t'.head, w := t'.w } := by
  induction xs generalizing p t slices bs with
  | nil =>
      simp only [putBytes, Option.some.injEq, Prod.mk.injEq] at hput
      obtain ⟨rfl, rfl⟩ := hput
      exact ⟨slices, by simpa using h, Extends.refl hp slices, rfl⟩
  | cons x xs ih =>
      rw [putBytes] at hput
      cases hx : putByte p t x with
      | none => simp [hx] at hput
      | some r =>
          obtain ⟨q, u⟩ := r
          simp only [hx] at hput
          obtain ⟨slices1, h1, hext1, heq1⟩ := putByte_spec hp h hx
          obtain ⟨slices2, h2, hext2, heq2⟩ := ih hext1.wf h1 hput
          refine ⟨slices2, by simpa using h2, ?_, ?_⟩
          · have htrans := hext1.trans hext2
            have hlen : 2 + 2 * xs.length = 2 * (x :: xs).length := by
              simp only [List.length_cons]
              omega
            rwa [hlen] at htrans
          · rw [heq2, heq1]

/-- A byte is accepted while two blocks fit. -/
theorem putByte_isSome {p : Pool} {t : Term} (hp : p.WF) (hroom : p.nBlocks + 2 ≤ maxBlocks)
    (x : UInt8) : (putByte p t x).isSome := by
  unfold putByte
  split
  · have halloc : (p.allocSlice 0).isSome := Pool.allocSlice_isSome hp (by omega)
    obtain ⟨⟨q, head, sliceEnd⟩, hr⟩ := Option.isSome_iff_exists.mp halloc
    have hstart : startChain p = some (q, { cur := head, sliceEnd := sliceEnd, level := 0 }, head) := by
      simp [startChain, hr]
    obtain ⟨_, hext, _⟩ := startChain_spec hp hstart
    have hblocks := hext.blocks
    have happ : (appendByte q { cur := head, sliceEnd := sliceEnd, level := 0 } x).isSome :=
      appendByte_isSome hext.wf (by omega) x
    obtain ⟨r, hr⟩ := Option.isSome_iff_exists.mp happ
    simp [hstart, hr]
  · have happ : (appendByte p t.w x).isSome := appendByte_isSome hp (by omega) x
    obtain ⟨r, hr⟩ := Option.isSome_iff_exists.mp happ
    simp [hr]

theorem putBytes_isSome {p : Pool} {t : Term} {slices : List Slice} {bs xs : Bytes} (hp : p.WF)
    (h : TermBytes p t slices bs) (hroom : p.nBlocks + 2 * xs.length ≤ maxBlocks) :
    (putBytes p t xs).isSome := by
  induction xs generalizing p t slices bs with
  | nil => rfl
  | cons x xs ih =>
      rw [List.length_cons] at hroom
      have hbyte : (putByte p t x).isSome := putByte_isSome hp (by omega) x
      obtain ⟨⟨q, u⟩, hx⟩ := Option.isSome_iff_exists.mp hbyte
      obtain ⟨slices1, h1, hext1, _⟩ := putByte_spec hp h hx
      have hblocks := hext1.blocks
      rw [putBytes, hx]
      exact ih hext1.wf h1 (by omega)

/-- **The accumulator of a term**: its chain encodes the tokens received, its
counters describe them. -/
structure TermHolds (p : Pool) (hasPositions : Bool) (t : Term) (slices : List Slice)
    (toks : List Tok) : Prop where
  bytes : TermBytes p t slices (encodeToks hasPositions none toks)
  ntok : t.ntok = toks.length
  count : toks.length < 2 ^ 32
  started : t.started = !toks.isEmpty
  curDocid : t.curDocid = (lastDoc toks).getD 0
  sorted : t.sorted = true ↔ toks.Pairwise (fun a b => a.1 ≤ b.1)

/-- A new term holds no token. -/
theorem TermHolds.empty (p : Pool) (hasPositions : Bool) : TermHolds p hasPositions {} [] [] where
  bytes := Or.inl ⟨rfl, rfl, rfl⟩
  ntok := rfl
  count := by decide
  started := rfl
  curDocid := rfl
  sorted := by simp

/-- A term's tokens are not touched by another term's chain. -/
theorem TermHolds.frame {n : Nat} {p p' : Pool} {hasPositions : Bool} {t : Term}
    {slices l l' : List Slice} {toks : List Tok} (h : TermHolds p hasPositions t slices toks)
    (hext : Extends n p p' l l') (hdisj : ∀ a, Footprint slices a → ¬ Footprint l a) :
    TermHolds p' hasPositions t slices toks :=
  { h with bytes := h.bytes.frame hext hdisj }

/-- A token starts a new document unless it repeats the last one. -/
theorem TermHolds.newDoc_eq {p : Pool} {hasPositions : Bool} {t : Term} {slices : List Slice}
    {toks : List Tok} (h : TermHolds p hasPositions t slices toks) (docid : Nat) :
    (!t.started || t.curDocid != docid) = decide (lastDoc toks ≠ some docid) := by
  rw [h.started, h.curDocid]
  rcases List.eq_nil_or_concat toks with rfl | ⟨init, last, rfl⟩
  · simp [lastDoc]
  · simp [lastDoc, bne, Bool.beq_eq_decide_eq]

/-- A sequence stays sorted unless the new docid is below the last one. -/
theorem pairwise_snoc_iff {toks : List Tok} {k : Tok} :
    (toks ++ [k]).Pairwise (fun a b => a.1 ≤ b.1) ↔
      toks.Pairwise (fun a b => a.1 ≤ b.1) ∧ (lastDoc toks).getD 0 ≤ k.1 := by
  rcases List.eq_nil_or_concat toks with rfl | ⟨init, last, rfl⟩
  · simp [lastDoc]
  · rw [List.concat_eq_append, List.pairwise_append]
    simp only [lastDoc, List.getLast?_append, List.getLast?_singleton, Option.some_or,
      Option.map_some, Option.getD_some, List.mem_append, List.mem_singleton, forall_eq,
      List.pairwise_singleton, true_and, or_imp, forall_and]
    constructor
    · rintro ⟨hp, _, hlast⟩
      exact ⟨hp, hlast⟩
    · rintro ⟨hp, hlast⟩
      refine ⟨hp, fun a ha => ?_, hlast⟩
      exact Nat.le_trans ((List.pairwise_append.mp hp).2.2 a ha last (by simp)) hlast

theorem lastDoc_snoc (toks : List Tok) (k : Tok) : lastDoc (toks ++ [k]) = some k.1 := by
  simp [lastDoc]

theorem putBytes_append (p : Pool) (t : Term) (xs ys : Bytes) :
    putBytes p t (xs ++ ys) = (putBytes p t xs).bind fun r => putBytes r.1 r.2 ys := by
  induction xs generalizing p t with
  | nil => rfl
  | cons x xs ih =>
      rw [List.cons_append, putBytes, putBytes]
      cases putByte p t x with
      | none => rfl
      | some r => exact ih r.1 r.2

/-- The order flag plays no part in appending bytes. -/
private theorem putBytes_sorted (p : Pool) (t : Term) (sorted : Bool) (xs : Bytes) :
    putBytes p { t with sorted := sorted } xs =
      (putBytes p t xs).map fun r => (r.1, { r.2 with sorted := sorted }) := by
  induction xs generalizing p t with
  | nil => rfl
  | cons x xs ih =>
      have hbyte : putByte p { t with sorted := sorted } x =
          (putByte p t x).map fun r => (r.1, { r.2 with sorted := sorted }) := by
        unfold putByte
        split
        · cases startChain p with
          | none => rfl
          | some r => simp [Option.map_map, Function.comp_def]
        · simp [Option.map_map, Function.comp_def]
      rw [putBytes, putBytes, hbyte]
      cases putByte p t x with
      | none => rfl
      | some r => exact ih r.1 r.2

/-- The counters of a term after a token. -/
def countedTerm (t : Term) (docid : Nat) : Term :=
  { t with curDocid := docid, started := true, ntok := (t.ntok + 1) % 2 ^ 32
           sorted := if t.started ∧ docid < t.curDocid then false else t.sorted }

/-- `appendToken` puts the token's entry on the chain and updates the counters. -/
private theorem appendToken_eq {p : Pool} {hasPositions : Bool} {t : Term} {slices : List Slice}
    {toks : List Tok} (hp : p.WF) (h : TermHolds p hasPositions t slices toks) (docid pos : Nat) :
    appendToken hasPositions p t docid pos =
      (putBytes p t (encodeTok hasPositions (lastDoc toks) (docid, pos))).map fun r =>
        (r.1, countedTerm { t with head := r.2.head, w := r.2.w } docid) := by
  have hnew := h.newDoc_eq docid
  have hbase : ((if t.started = true then (t.curDocid : Int) else 0)) =
      ((lastDoc toks).getD 0 : Nat) := by
    rw [h.started, h.curDocid]
    cases toks with
    | nil => simp [lastDoc]
    | cons k toks => simp
  unfold appendToken encodeTok
  simp only [hnew, putVarint]
  rw [putBytes_append]
  cases htag : putBytes p t (encodeVarint64 (if hasPositions = true then
      2 * pos + (decide (lastDoc toks ≠ some docid)).toNat
      else (decide (lastDoc toks ≠ some docid)).toNat)) with
  | none => rfl
  | some r =>
      obtain ⟨q, u⟩ := r
      obtain ⟨_, _, _, hu⟩ := putBytes_spec hp h.bytes htag
      have hstarted : u.started = t.started := by rw [hu]
      have hcur : u.curDocid = t.curDocid := by rw [hu]
      have hsorted : u.sorted = t.sorted := by rw [hu]
      have hntok : u.ntok = t.ntok := by rw [hu]
      simp only [Option.bind_eq_bind, Option.bind_some]
      by_cases hdoc : decide (lastDoc toks ≠ some docid) = true
      · rw [if_pos hdoc, if_pos hdoc, putBytes_sorted q u]
        simp only [hstarted, hcur, hsorted, hbase]
        cases hdelta : putBytes q u (encodeVarint64 (zigzagEncode
            ((docid : Int) - ((lastDoc toks).getD 0 : Nat)))) with
        | none => rfl
        | some r =>
            obtain ⟨q', u'⟩ := r
            obtain ⟨s1, hs1, hext1, _⟩ := putBytes_spec hp h.bytes htag
            obtain ⟨_, _, _, hu'⟩ := putBytes_spec hext1.wf hs1 hdelta
            simp only [Option.map_some, Option.bind_some, countedTerm]
            rw [hu', hu]
      · have hlast : lastDoc toks = some docid := by simpa using hdoc
        have hsame : t.curDocid = docid := by rw [h.curDocid, hlast]; rfl
        have htrue : t.started = true := by
          rw [h.started]
          cases toks with
          | nil => simp [lastDoc] at hlast
          | cons k toks => rfl
        rw [if_neg hdoc, if_neg hdoc]
        simp only [putBytes, Option.map_some, countedTerm, hsame, Nat.lt_irrefl, and_false,
          if_false]
        rw [hu, hsame, htrue]

/-- **Append a token**: the term holds one more and nothing else changed. -/
theorem appendToken_spec {p p' : Pool} {hasPositions : Bool} {t t' : Term} {slices : List Slice}
    {toks : List Tok} {docid pos : Nat} (hp : p.WF) (h : TermHolds p hasPositions t slices toks)
    (hcount : toks.length + 1 < 2 ^ 32)
    (happ : appendToken hasPositions p t docid pos = some (p', t')) :
    ∃ slices', TermHolds p' hasPositions t' slices' (toks ++ [(docid, pos)]) ∧
      Extends 40 p p' slices slices' := by
  rw [appendToken_eq hp h] at happ
  simp only [Option.map_eq_some_iff, Prod.mk.injEq] at happ
  obtain ⟨⟨q, u⟩, hput, rfl, rfl⟩ := happ
  obtain ⟨slices', hbytes, hext, hu⟩ := putBytes_spec hp h.bytes hput
  have hlen := encodeTok_length_le hasPositions (lastDoc toks) (docid, pos)
  refine ⟨slices', ⟨?_, ?_, ?_, ?_, ?_, ?_⟩, ⟨hext.wf, hext.grows, hext.fresh, hext.same, ?_⟩⟩
  · rw [encodeToks_append, Option.or_none]
    exact hbytes
  · simp only [countedTerm, h.ntok, List.length_append, List.length_singleton]
    exact Nat.mod_eq_of_lt hcount
  · simpa using hcount
  · simp [countedTerm]
  · simp [countedTerm, lastDoc_snoc]
  · rw [pairwise_snoc_iff, ← h.sorted]
    simp only [countedTerm]
    have hstarted := h.started
    have hcur := h.curDocid
    by_cases hlow : t.started = true ∧ docid < t.curDocid
    · rw [if_pos hlow]
      simp only [Bool.false_eq_true, false_iff, not_and]
      intro _
      omega
    · rw [if_neg hlow]
      constructor
      · intro hs
        refine ⟨hs, ?_⟩
        rcases Bool.eq_false_or_eq_true t.started with hst | hst
        · have : ¬ docid < t.curDocid := fun hlt => hlow ⟨hst, hlt⟩
          omega
        · rw [hstarted] at hst
          cases toks with
          | nil => simp [lastDoc]
          | cons k toks => simp at hst
      · exact fun hs => hs.1
  · have := hext.blocks
    show q.nBlocks ≤ p.nBlocks + 40
    omega

/-- A token is accepted while forty blocks fit. -/
theorem appendToken_isSome {p : Pool} {hasPositions : Bool} {t : Term} {slices : List Slice}
    {toks : List Tok} (hp : p.WF) (h : TermHolds p hasPositions t slices toks)
    (hroom : p.nBlocks + 40 ≤ maxBlocks) (docid pos : Nat) :
    (appendToken hasPositions p t docid pos).isSome := by
  have hlen := encodeTok_length_le hasPositions (lastDoc toks) (docid, pos)
  rw [appendToken_eq hp h, Option.isSome_map]
  exact putBytes_isSome hp h.bytes (by omega)

/-! ## Offsets in 32 bits -/

theorem putBytes_nextOffset_lt {p p' : Pool} {t t' : Term} {xs : Bytes}
    (hp : p.nextOffset < 2 ^ 32) (h : putBytes p t xs = some (p', t')) :
    p'.nextOffset < 2 ^ 32 := by
  induction xs generalizing p t with
  | nil =>
      cases h
      exact hp
  | cons x xs ih =>
      rw [putBytes] at h
      cases hx : putByte p t x with
      | none => simp [hx] at h
      | some r =>
          simp only [hx] at h
          apply ih _ h
          unfold putByte at hx
          split at hx
          · cases hstart : startChain p with
            | none => simp [hstart] at hx
            | some s =>
                simp only [hstart, Option.map_eq_some_iff] at hx
                obtain ⟨u, hbyte, rfl⟩ := hx
                exact appendByte_nextOffset_lt (startChain_nextOffset_lt hstart) hbyte
          · simp only [Option.map_eq_some_iff] at hx
            obtain ⟨u, hbyte, rfl⟩ := hx
            exact appendByte_nextOffset_lt hp hbyte

/-- A chain is no longer than its pool. -/
theorem TermBytes.length_le {p : Pool} {t : Term} {slices : List Slice} {bs : Bytes}
    (h : TermBytes p t slices bs) : bs.length ≤ p.nextOffset := by
  rcases h with ⟨rfl, _, _⟩ | ⟨_, hholds⟩
  · exact Nat.zero_le _
  · have hlen := hholds.length_le_cur
    obtain ⟨⟨rest, rfl, hchain⟩, hin⟩ := hholds
    obtain ⟨last, hmem, _, _, hstop, hhead, hcur⟩ := hchain.exists_last
    have hend := hin last.stop ⟨last, hmem, by omega, by omega⟩
    omega

/-- A token has at least one byte. -/
theorem length_le_encodeToks (hasPositions : Bool) (prev : Option Nat) (toks : List Tok) :
    toks.length ≤ (encodeToks hasPositions prev toks).length := by
  induction toks generalizing prev with
  | nil => exact Nat.le_refl _
  | cons k toks ih =>
      have htail := ih (some k.1)
      have hhead : 0 < (encodeTok hasPositions prev k).length := by
        rw [encodeTok, List.length_append]
        exact Nat.add_pos_left (List.length_pos_iff.mpr (encodeVarint64_ne_nil _)) _
      rw [encodeToks, List.length_append, List.length_cons]
      omega

/-- The offsets of the arena bound the tokens of a term. -/
theorem appendToken_count {p p' : Pool} {hasPositions : Bool} {t t' : Term} {slices : List Slice}
    {toks : List Tok} {docid pos : Nat} (hp : p.WF) (hoff : p.nextOffset < 2 ^ 32)
    (h : TermHolds p hasPositions t slices toks)
    (happ : appendToken hasPositions p t docid pos = some (p', t')) :
    toks.length + 1 < 2 ^ 32 ∧ p'.nextOffset < 2 ^ 32 := by
  rw [appendToken_eq hp h] at happ
  simp only [Option.map_eq_some_iff, Prod.mk.injEq] at happ
  obtain ⟨⟨q, u⟩, hput, rfl, rfl⟩ := happ
  obtain ⟨slices', hbytes, -, -⟩ := putBytes_spec hp h.bytes hput
  have hlt := putBytes_nextOffset_lt hoff hput
  have hlen := length_le_encodeToks hasPositions none (toks ++ [(docid, pos)])
  rw [encodeToks_append, Option.or_none, List.length_append, List.length_singleton] at hlen
  have hle := hbytes.length_le
  exact ⟨by omega, hlt⟩

/-! ## Decoding -/

/-- Off a chain the varint loop does what it does on the bytes. -/
private theorem decodeChainVarintLoop_eq {p : Pool} {v : Nat} {rest : Bytes} (fuel : Nat)
    {shift acc : Nat} {c : Cursor} {bs : Bytes} (hc : CursorAt p c bs) (hfuel : bs.length ≤ fuel)
    (h : decodeVarintLoop shift acc bs = .ok (v, rest)) :
    (decodeChainVarintLoop p fuel shift acc c).1 = v ∧
      CursorAt p (decodeChainVarintLoop p fuel shift acc c).2 rest := by
  induction fuel generalizing shift acc c bs with
  | zero =>
      obtain rfl := List.eq_nil_of_length_eq_zero (Nat.le_zero.mp hfuel)
      simp [decodeVarintLoop] at h
  | succ fuel ih =>
      cases bs with
      | nil => simp [decodeVarintLoop] at h
      | cons b bs =>
          obtain ⟨hb, hc'⟩ := hc.next
          rw [decodeVarintLoop] at h
          rw [decodeChainVarintLoop]
          simp only [hb]
          by_cases hlast : b.toNat < 128
          · rw [if_pos hlast] at h ⊢
            simp only [Except.ok.injEq, Prod.mk.injEq] at h
            obtain ⟨hv, rfl⟩ := h
            exact ⟨hv, hc'⟩
          · rw [if_neg hlast] at h ⊢
            split at h
            · simp at h
            · exact ih hc' (by simpa using hfuel) h

/-- A varint is read back across slices. -/
theorem decodeChainVarint_spec {p : Pool} {c : Cursor} {v : Nat} {bs : Bytes} (hv : v < 2 ^ 64)
    (hc : CursorAt p c (encodeVarint64 v ++ bs)) :
    (decodeChainVarint p c).1 = v ∧ CursorAt p (decodeChainVarint p c).2 bs := by
  have hbudget : (encodeVarint64 v ++ bs).length ≤ c.budget + 1 := by
    obtain ⟨_, _, _, _, _, _, _, _, _, h⟩ := hc
    omega
  exact decodeChainVarintLoop_eq (c.budget + 1) hc hbudget (decodeVarint64_encode hv bs)

/-- Off a chain the entry of a token reads back as its tag and, for a new
document, its distance. -/
private theorem decodeTok_spec {p : Pool} {hasPositions : Bool} {prev : Option Nat} {k : Tok}
    {c : Cursor} {bs : Bytes} (hk : k.Valid) (hprev : prev.getD 0 < 2 ^ 32)
    (hc : CursorAt p c (encodeTok hasPositions prev k ++ bs)) :
    let newDoc := decide (prev ≠ some k.1)
    (decodeChainVarint p c).1 =
        (if hasPositions then 2 * k.2 + newDoc.toNat else newDoc.toNat) ∧
      (newDoc = true →
        (decodeChainVarint p (decodeChainVarint p c).2).1 =
            zigzagEncode (k.1 - (prev.getD 0 : Nat)) ∧
          CursorAt p (decodeChainVarint p (decodeChainVarint p c).2).2 bs) ∧
      (newDoc = false → CursorAt p (decodeChainVarint p c).2 bs) := by
  obtain ⟨hd, hpos⟩ := hk
  unfold encodeTok at hc
  simp only at hc
  rw [List.append_assoc] at hc
  have htag : (if hasPositions = true then 2 * k.2 + (decide (prev ≠ some k.1)).toNat
      else (decide (prev ≠ some k.1)).toNat) < 2 ^ 64 := by
    have := Bool.toNat_le (decide (prev ≠ some k.1))
    split <;> omega
  obtain ⟨h1, hc1⟩ := decodeChainVarint_spec htag hc
  refine ⟨h1, ?_, ?_⟩
  · intro hnew
    rw [if_pos hnew] at hc1
    refine decodeChainVarint_spec ?_ hc1
    have := zigzagEncode_lt (v := (k.1 : Int) - (prev.getD 0 : Nat)) (n := 2 ^ 32)
      (by omega) (by omega)
    omega
  · intro hold
    have hfalse : ¬ decide (prev ≠ some k.1) = true := by simp [hold]
    rw [if_neg hfalse, List.nil_append] at hc1
    exact hc1

/-! ## Flat arrays of groups -/

/-- The flat arrays that lay out a list of groups. -/
def flat (keepPositions : Bool) (g : List (Nat × List Nat)) : Decoded :=
  { docids := g.map Prod.fst
    freqs := g.map fun e => e.2.length
    positionsFlat := if keepPositions then g.flatMap Prod.snd else [] }

/-- Consecutive tokens of one document, grouped in arrival order. -/
def tokRuns (g : List (Nat × List Nat)) (toks : List Tok) : List (Nat × List Nat) :=
  toks.foldl (fun g k => catGroups g [(k.1, [k.2])]) g

/-- Runs of tokens are the tokens. -/
theorem ungroup_tokRuns (g : List (Nat × List Nat)) (toks : List Tok) :
    ungroup (tokRuns g toks) = ungroup g ++ toks := by
  induction toks generalizing g with
  | nil => simp [tokRuns]
  | cons k toks ih =>
      have hstep := ih (catGroups g [(k.1, [k.2])])
      rw [tokRuns] at hstep ⊢
      rw [List.foldl_cons, hstep, ungroup_catGroups]
      simp [ungroup]

theorem tokRuns_nonempty {g : List (Nat × List Nat)} (hg : ∀ e ∈ g, e.2 ≠ []) (toks : List Tok) :
    ∀ e ∈ tokRuns g toks, e.2 ≠ [] := by
  induction toks generalizing g with
  | nil => exact hg
  | cons k toks ih => exact ih (catGroups_nonempty hg (by simp))

/-- The tokens of a grouping are counted by its groups. -/
theorem length_ungroup (g : List (Nat × List Nat)) :
    (ungroup g).length = (g.map fun e => e.2.length).sum := by
  simp [ungroup, List.length_flatMap]

/-- Appends a position when positions are kept. -/
def Decoded.withPosition (keepPositions : Bool) (pos : Nat) (d : Decoded) : Decoded :=
  { d with positionsFlat := if keepPositions then d.positionsFlat ++ [pos] else d.positionsFlat }

private theorem flat_newDoc (keepPositions : Bool) (g : List (Nat × List Nat)) (docid pos : Nat) :
    (((flat keepPositions g).newDoc docid).countToken).withPosition keepPositions pos =
      flat keepPositions (g ++ [(docid, [pos])]) := by
  cases keepPositions <;>
    simp [flat, Decoded.newDoc, Decoded.countToken, Decoded.withPosition]

private theorem flat_countToken (keepPositions : Bool) (g : List (Nat × List Nat))
    (last : Nat × List Nat) (pos : Nat) (hlen : last.2.length + 1 < 2 ^ 32) :
    ((flat keepPositions (g ++ [last])).countToken).withPosition keepPositions pos =
      flat keepPositions (g ++ [(last.1, last.2 ++ [pos])]) := by
  have hlen' : last.2.length + 1 < 4294967296 := hlen
  cases keepPositions <;>
    simp [flat, Decoded.countToken, Decoded.withPosition, hlen']

/-- One token read off the chain extends the groups by it. -/
private theorem flat_addTok (keepPositions : Bool) {g : List (Nat × List Nat)} (k : Tok)
    (hlen : (ungroup g).length + 1 < 2 ^ 32) :
    flat keepPositions (catGroups g [(k.1, [k.2])]) =
      if g.getLast?.map Prod.fst ≠ some k.1 then
        (((flat keepPositions g).newDoc k.1).countToken).withPosition keepPositions k.2
      else ((flat keepPositions g).countToken).withPosition keepPositions k.2 := by
  rcases List.eq_nil_or_concat g with rfl | ⟨g, last, rfl⟩
  · rw [catGroups_nil_left, if_pos (by simp), flat_newDoc, List.nil_append]
  · rw [List.concat_eq_append] at hlen ⊢
    have hlast : last.2.length + 1 < 2 ^ 32 := by
      rw [length_ungroup] at hlen
      simp only [List.map_append, List.map_cons, List.map_nil, List.sum_append, List.sum_cons,
        List.sum_nil] at hlen
      omega
    rw [catGroups_concat]
    by_cases heq : last.1 = k.1
    · rw [if_pos heq, if_neg (by simp [heq]), flat_countToken _ _ _ _ hlast]
    · rw [if_neg heq, if_pos (by simpa using heq), flat_newDoc]
      simp

theorem lastKey_catGroups (g : List (Nat × List Nat)) (k : Tok) :
    (catGroups g [(k.1, [k.2])]).getLast?.map Prod.fst = some k.1 := by
  rcases List.eq_nil_or_concat g with rfl | ⟨g, last, rfl⟩
  · simp [catGroups_nil_left]
  · rw [List.concat_eq_append, catGroups_concat]
    split
    · rename_i heq
      simp [heq]
    · simp

/-- **Decode**: the loop over a chain's tokens yields their groups. -/
theorem decodeTokens_spec {p : Pool} {hasPositions keepPositions : Bool}
    (hkeep : keepPositions = true → hasPositions = true) (toks : List Tok)
    {g : List (Nat × List Nat)} {c : Cursor} (hvalid : ∀ k ∈ toks, k.Valid)
    (hprev : (g.getLast?.map Prod.fst).getD 0 < 2 ^ 32)
    (hlen : (ungroup g).length + toks.length < 2 ^ 32)
    (hc : CursorAt p c (encodeToks hasPositions (g.getLast?.map Prod.fst) toks)) :
    decodeTokens p keepPositions toks.length c ((g.getLast?.map Prod.fst).getD 0 : Nat)
      (flat keepPositions g) = flat keepPositions (tokRuns g toks) := by
  induction toks generalizing g c with
  | nil => rfl
  | cons k toks ih =>
      have hk := hvalid k (by simp)
      rw [List.length_cons] at hlen
      rw [encodeToks] at hc
      obtain ⟨htag, hnew, hold⟩ := decodeTok_spec hk hprev hc
      have hadd := flat_addTok keepPositions (g := g) k (by omega)
      have hlast := lastKey_catGroups g k
      have hlen' : (ungroup (catGroups g [(k.1, [k.2])])).length + toks.length < 2 ^ 32 := by
        rw [ungroup_catGroups, List.length_append]
        simp only [ungroup, List.flatMap_cons, List.map_cons, List.map_nil, List.flatMap_nil,
          List.append_nil, List.length_singleton]
        simp only [ungroup] at hlen
        omega
      have hpos : keepPositions = true → (decodeChainVarint p c).1 / 2 % 2 ^ 32 = k.2 := by
        intro hkp
        have hbit := Bool.toNat_le (decide (g.getLast?.map Prod.fst ≠ some k.1))
        rw [htag, if_pos (hkeep hkp)]
        have hk2 := hk.2
        omega
      have hwith : ∀ d : Decoded, { d with positionsFlat := if keepPositions = true then
          d.positionsFlat ++ [(decodeChainVarint p c).1 / 2 % 2 ^ 32] else d.positionsFlat } =
          d.withPosition keepPositions k.2 := by
        intro d
        cases hkp : keepPositions with
        | false => rfl
        | true => rw [hpos hkp]; rfl
      rw [List.length_cons, decodeTokens]
      by_cases hdoc : g.getLast?.map Prod.fst ≠ some k.1
      · have hodd : (decodeChainVarint p c).1 % 2 = 1 := by
          rw [htag]
          simp only [hdoc, ne_eq, not_false_eq_true, decide_true, Bool.toNat_true]
          split <;> omega
        obtain ⟨hdelta, hc'⟩ := hnew (by simpa using hdoc)
        have hd := hk.1
        have hcur : ((g.getLast?.map Prod.fst).getD 0 : Nat) +
            zigzagDecode (decodeChainVarint p (decodeChainVarint p c).2).1 = (k.1 : Int) := by
          rw [hdelta, zigzagDecode_encode]
          omega
        have hmod : (((k.1 : Int)) % 2 ^ 32).toNat = k.1 := by omega
        rw [if_pos hdoc] at hadd
        simp only [if_pos hodd, hcur, hmod, hwith, ← hadd]
        have hih := ih (g := catGroups g [(k.1, [k.2])])
          (c := (decodeChainVarint p (decodeChainVarint p c).2).2)
          (fun j hj => hvalid j (by simp [hj])) (by rw [hlast]; exact hd) hlen'
          (by rw [hlast]; exact hc')
        rw [hlast] at hih
        exact hih
      · have heven : ¬ (decodeChainVarint p c).1 % 2 = 1 := by
          rw [htag]
          simp only [hdoc, decide_false, Bool.toNat_false]
          split <;> omega
        have hc' := hold (by simpa using hdoc)
        have hkey : g.getLast?.map Prod.fst = some k.1 := by simpa using hdoc
        rw [if_neg hdoc] at hadd
        simp only [if_neg heven, hwith, ← hadd]
        have hih := ih (g := catGroups g [(k.1, [k.2])]) (c := (decodeChainVarint p c).2)
          (fun j hj => hvalid j (by simp [hj])) (by rw [hlast]; exact hk.1) hlen'
          (by rw [hlast]; exact hc')
        rw [hlast] at hih
        rw [hkey]
        exact hih

/-- The pump's walk returns the positions of the tokens it passes. -/
theorem pumpChain_spec {p : Pool} (n : Nat) {prev : Option Nat} {toks : List Tok} {c : Cursor}
    (hvalid : ∀ k ∈ toks, k.Valid) (hprev : prev.getD 0 < 2 ^ 32) (hn : n ≤ toks.length)
    (hc : CursorAt p c (encodeToks true prev toks)) :
    (pumpChain p n c).1 = (toks.take n).map Prod.snd ∧
      ∃ prev', prev'.getD 0 < 2 ^ 32 ∧
        CursorAt p (pumpChain p n c).2 (encodeToks true prev' (toks.drop n)) := by
  induction n generalizing prev toks c with
  | zero => exact ⟨rfl, prev, hprev, hc⟩
  | succ n ih =>
      cases toks with
      | nil => simp at hn
      | cons k toks =>
          have hk := hvalid k (by simp)
          rw [encodeToks] at hc
          obtain ⟨htag, hnew, hold⟩ := decodeTok_spec hk hprev hc
          have hbit := Bool.toNat_le (decide (prev ≠ some k.1))
          have hpos : (decodeChainVarint p c).1 / 2 % 2 ^ 32 = k.2 := by
            have hk2 := hk.2
            rw [htag, if_pos rfl]
            omega
          have hnext : CursorAt p (if (decodeChainVarint p c).1 % 2 = 1 then
              (decodeChainVarint p (decodeChainVarint p c).2).2 else (decodeChainVarint p c).2)
              (encodeToks true (some k.1) toks) := by
            by_cases hdoc : prev ≠ some k.1
            · rw [if_pos (by rw [htag]; simp [hdoc])]
              exact (hnew (by simpa using hdoc)).2
            · rw [if_neg (by rw [htag]; simp [hdoc])]
              exact hold (by simpa using hdoc)
          have hn' : n ≤ toks.length := by simpa using hn
          obtain ⟨hmore, prev', hlt, hc'⟩ :=
            @ih (some k.1) toks _ (fun j hj => hvalid j (by simp [hj])) hk.1 hn' hnext
          rw [pumpChain]
          refine ⟨?_, prev', hlt, hc'⟩
          simp only [hpos, hmore, List.take_succ_cons, List.map_cons]

/-- Any sequence of pulls returns a prefix of the positions. -/
theorem pumpChains_spec {p : Pool} (sizes : List Nat) {prev : Option Nat} {toks : List Tok}
    {c : Cursor} (hvalid : ∀ k ∈ toks, k.Valid) (hprev : prev.getD 0 < 2 ^ 32)
    (hn : sizes.sum ≤ toks.length) (hc : CursorAt p c (encodeToks true prev toks)) :
    pumpChains p sizes c = (toks.take sizes.sum).map Prod.snd := by
  induction sizes generalizing prev toks c with
  | nil => simp [pumpChains]
  | cons n sizes ih =>
      rw [List.sum_cons] at hn
      obtain ⟨hblock, prev', hlt, hc'⟩ := pumpChain_spec n hvalid hprev (by omega) hc
      have hlen : sizes.sum ≤ (toks.drop n).length := by
        rw [List.length_drop]
        omega
      have hrest := ih (fun k hk => hvalid k (List.mem_of_mem_drop hk)) hlt hlen hc'
      rw [pumpChains]
      simp only [hblock, hrest]
      rw [← List.map_append, List.sum_cons, List.take_add]

end Snii.Writer.SpimiTermBuffer
