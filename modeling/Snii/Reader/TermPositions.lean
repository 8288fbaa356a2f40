import Snii.Lib.Aligned
import Snii.Reader.PostingRoundTrip

/-!
# The positions of a written term

A term's positions are one flat list, cut by the frequencies into documents and by the
windows into position windows.  What the writer put into a window reads back as the
positions of the window's documents (`TermWindows.positions`).
-/

namespace Snii.Reader

open Snii.Lib.ByteReader Snii.Lib.Chunks Snii.Common
open Snii.Encoding.Compression Snii.Format.Dict Snii.Format.PrxPod
open Snii.Writer.SpillRunCodec Snii.Writer.LogicalIndexWriter

/-! ## Cutting positions -/

section Cutting

variable {counts more flat : List Nat}

theorem splitCounts_append : splitCounts (counts ++ more) flat =
    splitCounts counts flat ++ splitCounts more (flat.drop counts.sum) := by
  induction counts generalizing flat with
  | nil => simp [splitCounts]
  | cons n counts ih =>
      rw [List.cons_append, splitCounts, splitCounts, ih, List.cons_append, List.drop_drop,
        List.sum_cons]

theorem splitCounts_take : splitCounts counts (flat.take counts.sum) = splitCounts counts flat := by
  induction counts generalizing flat with
  | nil => rfl
  | cons n counts ih =>
      rw [splitCounts, splitCounts, List.sum_cons, List.take_take, List.drop_take,
        Nat.add_sub_cancel_left, ih, Nat.min_eq_left (Nat.le_add_right _ _)]

theorem length_splitCounts : (splitCounts counts flat).length = counts.length := by
  induction counts generalizing flat with
  | nil => rfl
  | cons n counts ih => rw [splitCounts, List.length_cons, List.length_cons, ih]

/-- A partition of the list: the documents are the list again and have the counts. -/
theorem splitCounts_partition (h : counts.sum = flat.length) :
    (splitCounts counts flat).flatten = flat ∧
      (splitCounts counts flat).map List.length = counts := by
  induction counts generalizing flat with
  | nil =>
      have hnil : flat = [] := List.length_eq_zero_iff.mp h.symm
      rw [hnil]
      exact ⟨rfl, rfl⟩
  | cons n counts ih =>
      rw [List.sum_cons] at h
      have hrest := @ih (flat.drop n) (by rw [List.length_drop]; omega)
      rw [splitCounts, List.flatten_cons, List.map_cons, hrest.1, hrest.2, List.take_append_drop,
        List.length_take, Nat.min_eq_left (by omega)]
      exact ⟨rfl, rfl⟩

/-- The windows' documents, from the windows' counts. -/
def cutWindows : List (List Nat) → List Nat → List (List (List Nat))
  | [], _ => []
  | counts :: rest, flat =>
      splitCounts counts (flat.take counts.sum) :: cutWindows rest (flat.drop counts.sum)

theorem flatten_cutWindows (windows : List (List Nat)) (flat : List Nat) :
    (cutWindows windows flat).flatten = splitCounts windows.flatten flat := by
  induction windows generalizing flat with
  | nil => rfl
  | cons counts rest ih =>
      rw [cutWindows, List.flatten_cons, List.flatten_cons, splitCounts_append, splitCounts_take, ih]

end Cutting

/-! ## What a window's bytes hold -/

/-- Bytes that read back as the documents' positions. -/
structure WindowHolds (z : Zstd) (prx : Bytes) (docs : List (List Nat)) : Prop where
  ascending : ∀ doc ∈ docs, doc.IsChain (· ≤ ·)
  small : docs.flatten.length < 2 ^ 32
  lists : Reads (readPrxWindow z) prx docs
  csr : Reads (readPrxWindowCsr z) prx (docs.foldl Csr.push Csr.empty)

/-- Positions that were encoded are as many as the counts say. -/
theorem sum_eq_length_of_built {z : Zstd} {flat counts : List Nat} {prx : Bytes}
    (h : buildPrxWindowFlat z flat counts kAutoZstd = .ok prx) : counts.sum = flat.length := by
  rw [kAutoZstd, buildPrxWindowFlat_auto] at h
  obtain ⟨payload, hpayload, -⟩ := bind_eq_ok h
  rw [encodePforPayloadFlat] at hpayload
  obtain ⟨⟨⟩, hpartition, -⟩ := bind_eq_ok hpayload
  rw [checkFlatPartition] at hpartition
  by_contra hne
  rw [if_pos hne] at hpartition
  cases hpartition

/-- Positions that were encoded do not descend inside a document. -/
theorem ascending_of_built {z : Zstd} {flat counts : List Nat} {prx : Bytes}
    (h : buildPrxWindowFlat z flat counts kAutoZstd = .ok prx) :
    ∀ doc ∈ splitCounts counts flat, doc.IsChain (· ≤ ·) := by
  rw [kAutoZstd, buildPrxWindowFlat_auto] at h
  obtain ⟨payload, hpayload, -⟩ := bind_eq_ok h
  rw [encodePforPayloadFlat] at hpayload
  obtain ⟨⟨⟩, -, hdeltas⟩ := bind_eq_ok hpayload
  obtain ⟨ds, hds, -⟩ := bind_eq_ok hdeltas
  exact flatDeltas_inv hds

/-- **A window that was built** within the reader's caps reads back as its documents. -/
theorem windowHolds_of_built {z : Zstd} {flat counts : List Nat} {prx : Bytes}
    (h : buildPrxWindowFlat z flat counts kAutoZstd = .ok prx) (hwidth : ∀ p ∈ flat, p < 2 ^ 32)
    (hfits : Fits (splitCounts counts flat)) : WindowHolds z prx (splitCounts counts flat) := by
  obtain ⟨hflatten, hlengths⟩ := splitCounts_partition (sum_eq_length_of_built h)
  have hascending := ascending_of_built h
  have hpositions : Positions (splitCounts counts flat) := by
    refine ⟨hascending, fun doc hdoc p hp => hwidth p ?_⟩
    rw [← hflatten]
    exact List.mem_flatten.mpr ⟨doc, hdoc, hp⟩
  obtain ⟨bytes, hbytes, hlists, hcsr⟩ := buildPrxWindowFlat_reads z hpositions hfits
  rw [hflatten, hlengths] at hbytes
  rw [kAutoZstd, hbytes] at h
  cases h
  exact ⟨hascending, Nat.lt_of_le_of_lt hfits.posCount (by decide), hlists, hcsr⟩

/-! ## The windows of a term -/

variable {z : Zstd} {c : EntryConfig} {tp : Emitted} {vs : List Window}

/-- The windows that a term's posting is read in: a windowed term's own, or the whole
posting as one. -/
inductive TermWindows (z : Zstd) (c : EntryConfig) (tp : Emitted) : List Window → Prop
  | windowed (vs : List Window) (prelude : Bytes)
      (wide : kSlimDfThreshold ≤ tp.postings.docids.length) (term : Windowed z c tp vs prelude) :
      TermWindows z c tp vs
  | flat (prx : Bytes) (small : tp.postings.docids.length < kSlimDfThreshold)
      (positions : makePrxWindow z c tp.postings = .ok prx) :
      TermWindows z c tp [⟨tp.postings.docids, tp.postings.freqs, prx⟩]

theorem TermWindows.docs (h : TermWindows z c tp vs)
    (hlen : tp.postings.freqs.length = tp.postings.docids.length) :
    vs.flatMap Window.docs = tp.postings.docids := by
  cases h with
  | windowed vs prelude wide term =>
      have hunit := unitOf_bounds tp.postings
      rw [List.flatMap_def, (term.windows hlen).1, flatten_chunks (by omega)]
  | flat prx small positions => simp

/-- The positions that the writer takes of a term: those of a slim term always come
from the flat list. -/
def suppliedPositions (tp : Emitted) : List Nat :=
  if kSlimDfThreshold ≤ tp.postings.docids.length then tp.positions else tp.postings.positionsFlat

/-- The positions of each document of a term. -/
def docPositions (tp : Emitted) : List (List Nat) :=
  splitCounts tp.postings.freqs (suppliedPositions tp)

/-- The frequencies of a term, window by window. -/
def freqWindows (tp : TermPostings) : List (List Nat) :=
  if kSlimDfThreshold ≤ tp.docids.length then chunks (unitOf tp) tp.freqs else [tp.freqs]

/-- The positions of each document, window by window. -/
def positionWindows (tp : Emitted) : List (List (List Nat)) :=
  cutWindows (freqWindows tp.postings) (suppliedPositions tp)

theorem flatten_positionWindows (tp : Emitted) :
    (positionWindows tp).flatten = docPositions tp := by
  have hunit := unitOf_bounds tp.postings
  rw [positionWindows, flatten_cutWindows, docPositions, freqWindows]
  split
  · rw [flatten_chunks (by omega)]
  · simp

/-- The positions have the width of their type, and no window is beyond the reader's
caps. -/
structure PositionsFit (tp : Emitted) : Prop where
  widths : ∀ p ∈ suppliedPositions tp, p < 2 ^ 32
  fits : ∀ docs ∈ positionWindows tp, Fits docs

instance decidablePositionsFit (tp : Emitted) : Decidable (PositionsFit tp) :=
  decidable_of_iff ((∀ p ∈ suppliedPositions tp, p < 2 ^ 32) ∧ ∀ docs ∈ positionWindows tp, Fits docs)
    ⟨fun ⟨hw, hf⟩ => ⟨hw, hf⟩, fun h => ⟨h.widths, h.fits⟩⟩

theorem windowPositions_inv {posOff n : Nat} {pos : List Nat}
    (h : windowPositions tp posOff n = .ok pos) : pos = (tp.positions.drop posOff).take n := by
  rw [windowPositions] at h
  rw [Emitted.positions]
  cases hs : tp.postings.streamed with
  | true =>
      rw [hs, if_pos rfl] at h
      cases h
      rfl
  | false =>
      rw [hs, if_neg Bool.false_ne_true] at h
      by_cases hbig : posOff + n > tp.postings.positionsFlat.length
      · rw [if_pos hbig] at h
        cases h
      · rw [if_neg hbig] at h
        cases h
        rfl

theorem holds_of_encoded {posOff : Nat} (h : PrxEncoded z c tp posOff vs) (hprx : c.hasPrx = true)
    (hwidth : ∀ p ∈ tp.positions, p < 2 ^ 32)
    (hfits : ∀ docs ∈ cutWindows (vs.map Window.freqs) (tp.positions.drop posOff), Fits docs) :
    List.Forall₂ (fun v docs => WindowHolds z v.prx docs) vs
      (cutWindows (vs.map Window.freqs) (tp.positions.drop posOff)) := by
  induction vs generalizing posOff with
  | nil => exact .nil
  | cons v vs ih =>
      rw [List.map_cons, cutWindows, List.drop_drop] at hfits ⊢
      obtain ⟨hhere, hrest⟩ := List.forall_mem_cons.mp hfits
      obtain ⟨pos, hpos, hbuilt⟩ := h.1 hprx
      rw [windowPositions_inv hpos] at hbuilt
      refine .cons (windowHolds_of_built hbuilt (fun p hp => hwidth p ?_) hhere) (ih h.2.2 hrest)
      exact List.mem_of_mem_drop (List.mem_of_mem_take hp)

/-- **The windows of a written term** hold the positions of their documents. -/
theorem TermWindows.positions (h : TermWindows z c tp vs) (hprx : c.hasPrx = true)
    (hlen : tp.postings.freqs.length = tp.postings.docids.length) (hfit : PositionsFit tp) :
    List.Forall₂ (fun v docs => WindowHolds z v.prx docs) vs (positionWindows tp) := by
  have hwidth := hfit.widths
  have hfits := hfit.fits
  cases h with
  | windowed vs prelude wide term =>
      rw [suppliedPositions, if_pos wide] at hwidth
      rw [positionWindows, freqWindows, if_pos wide, suppliedPositions, if_pos wide,
        ← (term.windows hlen).2] at hfits ⊢
      exact holds_of_encoded term.encoded hprx hwidth hfits
  | flat prx small positions =>
      have hnot : ¬ kSlimDfThreshold ≤ tp.postings.docids.length := by omega
      rw [suppliedPositions, if_neg hnot] at hwidth
      rw [positionWindows, freqWindows, if_neg hnot, suppliedPositions, if_neg hnot, cutWindows,
        splitCounts_take, cutWindows] at hfits ⊢
      rw [makePrxWindow, if_pos hprx] at positions
      exact .cons (windowHolds_of_built positions hwidth (hfits _ List.mem_cons_self)) .nil

theorem forall₂_cutWindows (vs : List Window) (flat : List Nat) :
    List.Forall₂ (fun v docs => docs.length = v.freqs.length) vs
      (cutWindows (vs.map Window.freqs) flat) := by
  induction vs generalizing flat with
  | nil => exact .nil
  | cons v vs ih => exact .cons length_splitCounts (ih _)

/-- A window has the positions of as many documents as it holds. -/
theorem TermWindows.counts (h : TermWindows z c tp vs)
    (hlen : tp.postings.freqs.length = tp.postings.docids.length) (hwidths : TermWidths tp.postings) :
    List.Forall₂ (fun v docs => docs.length = v.docs.length) vs (positionWindows tp) := by
  have hlens : ∀ v ∈ vs, v.freqs.length = v.docs.length := by
    cases h with
    | windowed vs prelude wide term =>
        exact fun v hv => (term.windowOk hlen hwidths v hv).lengths
    | flat prx small positions => simpa using hlen
  have hwindows : freqWindows tp.postings = vs.map Window.freqs := by
    cases h with
    | windowed vs prelude wide term => rw [freqWindows, if_pos wide, (term.windows hlen).2]
    | flat prx small positions => rw [freqWindows, if_neg (by omega)]; rfl
  have heach := (List.forall₂_and_left _ _).mpr ⟨hlens, forall₂_cutWindows vs (suppliedPositions tp)⟩
  rw [positionWindows, hwindows]
  exact heach.imp fun _ _ hx => hx.2.trans hx.1

/-! ## The positions of a document -/

theorem mem_splitCounts {counts flat doc : List Nat} (h : doc ∈ splitCounts counts flat) {p : Nat}
    (hp : p ∈ doc) : p ∈ flat := by
  induction counts generalizing flat with
  | nil => cases h
  | cons n counts ih =>
      rw [splitCounts] at h
      cases List.mem_cons.mp h with
      | inl heq =>
          rw [heq] at hp
          exact List.mem_of_mem_take hp
      | inr hrest => exact List.mem_of_mem_drop (ih hrest)

/-- The documents of a term with their positions. -/
def docRows (tp : Emitted) : List (Nat × List Nat) := tp.postings.docids.zip (docPositions tp)

/-- The term stands at the position of the document. -/
def OccursAt (tp : Emitted) (d p : Nat) : Prop := ∃ ps, (d, ps) ∈ docRows tp ∧ p ∈ ps

/-- The positions of a document; none for a document without the term. -/
def positionsAt (tp : Emitted) (d : Nat) : List Nat :=
  (((docRows tp).find? fun x => x.1 == d).map Prod.snd).getD []

theorem positionsAt_of_mem (hasc : tp.postings.docids.Pairwise (· < ·))
    (hlen : tp.postings.freqs.length = tp.postings.docids.length) {x : Nat × List Nat}
    (hx : x ∈ docRows tp) : positionsAt tp x.1 = x.2 := by
  have hle : tp.postings.docids.length ≤ (docPositions tp).length := by
    rw [docPositions, length_splitCounts, hlen]
  have hkeys : ((docRows tp).map Prod.fst).Nodup := by
    rw [docRows, List.map_fst_zip hle]
    exact hasc.imp Nat.ne_of_lt
  cases hfind : (docRows tp).find? fun y => y.1 == x.1 with
  | none =>
      rw [List.find?_eq_none] at hfind
      exact absurd BEq.rfl (hfind x hx)
  | some y =>
      have hkey := List.find?_some hfind
      have hsame := List.inj_on_of_nodup_map hkeys (List.mem_of_find?_eq_some hfind) hx
        (eq_of_beq hkey)
      rw [positionsAt, hfind, hsame]
      rfl

theorem mem_positionsAt (hasc : tp.postings.docids.Pairwise (· < ·))
    (hlen : tp.postings.freqs.length = tp.postings.docids.length) (d p : Nat) :
    p ∈ positionsAt tp d ↔ OccursAt tp d p := by
  constructor
  · intro hp
    rw [positionsAt] at hp
    cases hfind : (docRows tp).find? fun y => y.1 == d with
    | none =>
        rw [hfind] at hp
        cases hp
    | some y =>
        have hbeq := List.find?_some hfind
        have hkey : y.1 = d := eq_of_beq hbeq
        rw [hfind] at hp
        exact ⟨y.2, hkey ▸ List.mem_of_find?_eq_some hfind, hp⟩
  · rintro ⟨ps, hps, hp⟩
    rwa [positionsAt_of_mem hasc hlen hps]

theorem OccursAt.mem_docids {d p : Nat} (h : OccursAt tp d p) : d ∈ tp.postings.docids := by
  obtain ⟨ps, hps, -⟩ := h
  exact (List.of_mem_zip hps).1

theorem OccursAt.mem_supplied {d p : Nat} (h : OccursAt tp d p) : p ∈ suppliedPositions tp := by
  obtain ⟨ps, hps, hp⟩ := h
  exact mem_splitCounts (List.of_mem_zip hps).2 hp

theorem zip_flatten {α β : Type} {as : List (List α)} {bs : List (List β)}
    (h : List.Forall₂ (fun a b => b.length = a.length) as bs) :
    as.flatten.zip bs.flatten = ((as.zip bs).map fun x => x.1.zip x.2).flatten := by
  induction h with
  | nil => rfl
  | @cons a b as bs hab _ ih =>
      rw [List.flatten_cons, List.flatten_cons, List.zip_append hab.symm, ih]
      rfl

/-- The documents of a window with their positions. -/
def windowRows (tp : Emitted) (vs : List Window) : List (List (Nat × List Nat)) :=
  ((vs.map Window.docs).zip (positionWindows tp)).map fun x => x.1.zip x.2

/-- **The windows' documents** with their positions are the term's. -/
theorem TermWindows.rows (h : TermWindows z c tp vs)
    (hlen : tp.postings.freqs.length = tp.postings.docids.length) (hwidths : TermWidths tp.postings) :
    docRows tp = (windowRows tp vs).flatten := by
  have hcounts := h.counts hlen hwidths
  rw [docRows, ← h.docs hlen, ← flatten_positionWindows, List.flatMap_def, windowRows]
  apply zip_flatten
  rw [List.forall₂_map_left_iff]
  exact hcounts

/-- The positions of every document ascend. -/
theorem TermWindows.sorted (h : TermWindows z c tp vs) (hprx : c.hasPrx = true)
    (hlen : tp.postings.freqs.length = tp.postings.docids.length) (hfit : PositionsFit tp) :
    ∀ doc ∈ docPositions tp, doc.IsChain (· ≤ ·) := by
  intro doc hdoc
  rw [← flatten_positionWindows] at hdoc
  obtain ⟨docs, hdocs, hin⟩ := List.mem_flatten.mp hdoc
  obtain ⟨v, -, hholds⟩ := Lib.Aligned.exists_left_of_mem (h.positions hprx hlen hfit) hdocs
  exact hholds.ascending doc hin

end Snii.Reader
