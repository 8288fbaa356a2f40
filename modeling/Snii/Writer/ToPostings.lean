import Mathlib.Algebra.BigOperators.Group.List.Basic
import Mathlib.Algebra.Order.BigOperators.Group.List
import Snii.Writer.TermChain

/-!
# The postings of one term

The reorder by docid, on the flat arrays of any groups, sorts the groups stably
and folds equal docids (`sortByDocid_flat`).  `toPostings` therefore returns the
grouping of the tokens a term received, in whatever order they came
(`toPostings_spec`), and a streamed term pumps exactly their positions.
-/

namespace Snii.Writer.SpimiTermBuffer

open Snii.Lib.ByteReader Snii.Lib.Grouping Snii.Encoding.Varint
  Snii.Writer.CompactPostingPool Snii.Writer.SpillRunCodec

/-- Folds neighbouring groups with one key. -/
def foldGroups (acc g : List (Nat × List Nat)) : List (Nat × List Nat) :=
  g.foldl (fun acc e => catGroups acc [e]) acc

theorem ungroup_foldGroups (acc g : List (Nat × List Nat)) :
    ungroup (foldGroups acc g) = ungroup acc ++ ungroup g := by
  induction g generalizing acc with
  | nil => simp [foldGroups, ungroup]
  | cons e g ih =>
      have hstep := ih (catGroups acc [e])
      rw [foldGroups] at hstep ⊢
      rw [List.foldl_cons, hstep, ungroup_catGroups, List.append_assoc, ← ungroup_append]
      rfl

theorem foldGroups_nonempty {acc g : List (Nat × List Nat)} (hacc : ∀ e ∈ acc, e.2 ≠ [])
    (hg : ∀ e ∈ g, e.2 ≠ []) : ∀ e ∈ foldGroups acc g, e.2 ≠ [] := by
  induction g generalizing acc with
  | nil => exact hacc
  | cons e g ih =>
      refine ih (catGroups_nonempty hacc ?_) fun f hf => hg f (by simp [hf])
      simpa using hg e (by simp)

/-- Keys that do not descend end up strictly ascending. -/
theorem foldGroups_ascending {acc g : List (Nat × List Nat)}
    (hacc : acc.Pairwise fun a b => a.1 < b.1) (hg : g.Pairwise fun a b => a.1 ≤ b.1)
    (hcross : ∀ a ∈ acc, ∀ b ∈ g, a.1 ≤ b.1) :
    (foldGroups acc g).Pairwise fun a b => a.1 < b.1 := by
  induction g generalizing acc with
  | nil => exact hacc
  | cons e g ih =>
      obtain ⟨he, hg⟩ := List.pairwise_cons.mp hg
      have hstep : (catGroups acc [e]).Pairwise fun a b => a.1 < b.1 := by
        rw [catGroups_ascending_iff hacc (by simp)]
        intro a ha b hb
        obtain rfl := List.mem_singleton.mp hb
        exact hcross a ha b (by simp)
      refine ih hstep hg ?_
      intro a ha b hb
      rcases mem_keys_of_mem_catGroups ha with hold | hnew
      · obtain ⟨x, hx, hxa⟩ := List.mem_map.mp hold
        rw [← hxa]
        exact hcross x hx b (by simp [hb])
      · have hae : a.1 = e.1 := by simpa using hnew
        rw [hae]
        exact he b hb

/-- Sorted by key and folded, any groups have strictly ascending keys. -/
theorem foldGroups_sort_ascending (g : List (Nat × List Nat)) :
    (foldGroups [] (g.insertionSort fun a b => a.1 ≤ b.1)).Pairwise fun a b => a.1 < b.1 := by
  have : Std.Total fun a b : Nat × List Nat => a.1 ≤ b.1 := ⟨fun _ _ => Nat.le_total _ _⟩
  have : IsTrans (Nat × List Nat) fun a b => a.1 ≤ b.1 := ⟨fun _ _ _ => Nat.le_trans⟩
  exact foldGroups_ascending List.Pairwise.nil (List.pairwise_insertionSort _ _) (by simp)

/-- ... and under each key the values that were there, in arrival order. -/
theorem valuesOf_foldGroups_sort (d : Nat) (g : List (Nat × List Nat)) :
    valuesOf d (ungroup (foldGroups [] (g.insertionSort fun a b => a.1 ≤ b.1))) =
      valuesOf d (ungroup g) := by
  rw [ungroup_foldGroups, show ungroup ([] : List (Nat × List Nat)) = [] from rfl,
    List.nil_append, valuesOf_insertionSort]

/-! ## The reorder on flat arrays -/

/-- Each group's slice of the flat positions starts at its offset. -/
private theorem slice_at_offset {g : List (Nat × List Nat)} {pre : List Nat}
    (hlen : pre.length + (g.map fun e => e.2.length).sum < 2 ^ 32) :
    ∀ x ∈ g.zip (posOffsets pre.length (g.map fun e => e.2.length)),
      ((pre ++ g.flatMap Prod.snd).drop x.2).take x.1.2.length = x.1.2 := by
  induction g generalizing pre with
  | nil => simp
  | cons e g ih =>
      simp only [List.map_cons, List.sum_cons] at hlen
      simp only [List.map_cons, posOffsets, List.zip_cons_cons, List.flatMap_cons]
      have hmod : (pre.length + e.2.length) % 2 ^ 32 = (pre ++ e.2).length := by
        rw [List.length_append]
        exact Nat.mod_eq_of_lt (by omega)
      intro x hx
      rcases List.mem_cons.mp hx with rfl | hx
      · simp
      · rw [hmod] at hx
        have htail := @ih (pre ++ e.2) (by rw [List.length_append]; omega) x hx
        rwa [List.append_assoc] at htail

theorem length_posOffsets (running : Nat) (freqs : List Nat) :
    (posOffsets running freqs).length = freqs.length := by
  induction freqs generalizing running with
  | nil => rfl
  | cons f freqs ih => simp [posOffsets, ih]

/-- One entry of the reorder folds one group. -/
private theorem coalesceEntry_flat {positions : List Nat} (hasPositions : Bool)
    {acc : List (Nat × List Nat)} {e : Nat × List Nat} {off : Nat}
    (hslice : hasPositions = true → (positions.drop off).take e.2.length = e.2)
    (hlen : (ungroup acc).length + e.2.length < 2 ^ 32) :
    coalesceEntry positions hasPositions (flat hasPositions acc) (e.1, e.2.length, off) =
      flat hasPositions (catGroups acc [e]) := by
  rcases List.eq_nil_or_concat acc with rfl | ⟨acc, last, rfl⟩
  · rw [catGroups_nil_left]
    cases hasPositions with
    | false => simp [coalesceEntry, flat]
    | true => simp [coalesceEntry, flat, hslice rfl]
  · rw [List.concat_eq_append] at hlen ⊢
    have hsum : last.2.length + e.2.length < 4294967296 := by
      rw [length_ungroup] at hlen
      simp only [List.map_append, List.map_cons, List.map_nil, List.sum_append, List.sum_cons,
        List.sum_nil] at hlen
      omega
    rw [catGroups_concat]
    by_cases heq : last.1 = e.1
    · cases hasPositions with
      | false => simp [coalesceEntry, flat, heq, Nat.mod_eq_of_lt hsum]
      | true => simp [coalesceEntry, flat, hslice rfl, heq, Nat.mod_eq_of_lt hsum]
    · cases hasPositions with
      | false => simp [coalesceEntry, flat, heq]
      | true => simp [coalesceEntry, flat, hslice rfl, heq]

private theorem foldl_coalesceEntry_flat {positions : List Nat} (hasPositions : Bool)
    (gz : List ((Nat × List Nat) × Nat)) {acc : List (Nat × List Nat)}
    (hslice : hasPositions = true →
      ∀ x ∈ gz, (positions.drop x.2).take x.1.2.length = x.1.2)
    (hlen : (ungroup acc).length + (gz.map fun x => x.1.2.length).sum < 2 ^ 32) :
    (gz.map fun x => (x.1.1, x.1.2.length, x.2)).foldl (coalesceEntry positions hasPositions)
      (flat hasPositions acc) = flat hasPositions (foldGroups acc (gz.map Prod.fst)) := by
  induction gz generalizing acc with
  | nil => rfl
  | cons x gz ih =>
      simp only [List.map_cons, List.sum_cons] at hlen
      rw [List.map_cons, List.foldl_cons,
        coalesceEntry_flat hasPositions (fun hpos => hslice hpos x (by simp)) (by omega)]
      refine ih (fun hpos y hy => hslice hpos y (by simp [hy])) ?_
      rw [ungroup_catGroups, List.length_append]
      have : (ungroup [x.1]).length = x.1.2.length := by simp [ungroup]
      omega

theorem map_getD_range {α : Type*} (l : List α) (d : α) :
    (List.range l.length).map (fun i => l.getD i d) = l := by
  refine List.ext_getElem (by simp) fun i h1 h2 => ?_
  simp [List.getElem?_eq_getElem h2]

/-- **The reorder**: on the arrays of any groups it sorts the groups by docid,
keeping arrival order among equal ones, and folds those. -/
theorem sortByDocid_flat (hasPositions : Bool) {g : List (Nat × List Nat)}
    (hlen : (ungroup g).length < 2 ^ 32) :
    sortByDocid (flat hasPositions g) hasPositions =
      flat hasPositions (foldGroups [] (g.insertionSort fun a b => a.1 ≤ b.1)) := by
  rw [length_ungroup] at hlen
  let freqs := g.map fun e => e.2.length
  let gz := g.zip (posOffsets 0 freqs)
  let f : Nat → (Nat × List Nat) × Nat := fun i => gz.getD i ((0, []), 0)
  have hgzlen : gz.length = g.length := by simp [gz, freqs, length_posOffsets]
  have hgzfst : gz.map Prod.fst = g := List.map_fst_zip (by simp [freqs, length_posOffsets])
  have hf : ∀ i < g.length, (f i).1 = g.getD i (0, []) ∧ (f i).2 = (posOffsets 0 freqs).getD i 0 := by
    intro i hi
    have hi' : i < (posOffsets 0 freqs).length := by simpa [freqs, length_posOffsets] using hi
    have hz : i < gz.length := by omega
    simp only [f, List.getD_eq_getElem?_getD, List.getElem?_eq_getElem hz,
      List.getElem?_eq_getElem hi, List.getElem?_eq_getElem hi', Option.getD_some]
    simp [gz]
  have hentry : ∀ i < g.length, ((flat hasPositions g).docids.getD i 0,
      (flat hasPositions g).freqs.getD i 0,
      (posOffsets 0 (flat hasPositions g).freqs).getD i 0) =
      ((f i).1.1, (f i).1.2.length, (f i).2) := by
    intro i hi
    obtain ⟨h1, h2⟩ := hf i hi
    rw [h1, h2]
    simp [flat, freqs, List.getElem?_eq_getElem hi]
  let order := (List.range g.length).insertionSort
    fun a b => (flat hasPositions g).docids.getD a 0 ≤ (flat hasPositions g).docids.getD b 0
  have hmem : ∀ i ∈ order, i < g.length := by
    intro i hi
    simpa using (List.mem_insertionSort _).mp hi
  have horder : order.map f = gz.insertionSort fun x y => x.1.1 ≤ y.1.1 := by
    have hmap := List.map_insertionSort
      (fun a b => (flat hasPositions g).docids.getD a 0 ≤ (flat hasPositions g).docids.getD b 0)
      (fun x y : (Nat × List Nat) × Nat => x.1.1 ≤ y.1.1) f (List.range g.length) (by
        intro a ha b hb
        have ha' := congrArg Prod.fst (hentry a (List.mem_range.mp ha))
        have hb' := congrArg Prod.fst (hentry b (List.mem_range.mp hb))
        simp only at ha' hb'
        rw [ha', hb'])
    rw [hmap, ← hgzlen, map_getD_range]
  have hsorted : (gz.insertionSort fun x y => x.1.1 ≤ y.1.1).map Prod.fst =
      g.insertionSort fun a b => a.1 ≤ b.1 := by
    have hmap := List.map_insertionSort (fun x y : (Nat × List Nat) × Nat => x.1.1 ≤ y.1.1)
      (fun a b : Nat × List Nat => a.1 ≤ b.1) Prod.fst gz (fun _ _ _ _ => Iff.rfl)
    rw [hmap, hgzfst]
  have hperm := List.perm_insertionSort (fun x y : (Nat × List Nat) × Nat => x.1.1 ≤ y.1.1) gz
  have hsum : ((gz.insertionSort fun x y => x.1.1 ≤ y.1.1).map fun x => x.1.2.length).sum =
      (g.map fun e => e.2.length).sum := by
    rw [(hperm.map _).sum_eq, ← hgzfst, List.map_map]
    rfl
  have hdocs : (flat hasPositions g).docids.length = g.length := by simp [flat]
  have hslice : hasPositions = true →
      ∀ x ∈ gz.insertionSort (fun x y => x.1.1 ≤ y.1.1),
        ((flat hasPositions g).positionsFlat.drop x.2).take x.1.2.length = x.1.2 := by
    intro hpos x hx
    have := @slice_at_offset g [] (by simpa using hlen) x (hperm.mem_iff.mp hx)
    simpa [flat, hpos] using this
  have hentries : order.map (fun k => ((flat hasPositions g).docids.getD k 0,
      (flat hasPositions g).freqs.getD k 0,
      (posOffsets 0 (flat hasPositions g).freqs).getD k 0)) =
      (gz.insertionSort fun x y => x.1.1 ≤ y.1.1).map fun x => (x.1.1, x.1.2.length, x.2) := by
    rw [← horder, List.map_map]
    exact List.map_congr_left fun i hi => hentry i (hmem i hi)
  have hfold := @foldl_coalesceEntry_flat (flat hasPositions g).positionsFlat hasPositions
    (gz.insertionSort fun x y => x.1.1 ≤ y.1.1) [] hslice
    (by rw [hsum]; simpa [ungroup] using hlen)
  have hnil : ({} : Decoded) = flat hasPositions [] := by simp [flat]
  unfold sortByDocid
  simp only [hdocs]
  rw [hentries, hnil, hfold, hsorted]
  cases hasPositions with
  | false => simp [flat]
  | true => rfl

/-! ## The grouping of a term's tokens -/

theorem flatMap_snd_eq (g : List (Nat × List Nat)) :
    g.flatMap Prod.snd = (ungroup g).map Prod.snd := by
  simp [ungroup, List.map_flatMap, Function.comp_def]

/-- Tokens in non-descending order are grouped as they come. -/
theorem tokRuns_eq_group {toks : List Tok} (h : toks.Pairwise fun a b => a.1 ≤ b.1) :
    tokRuns [] toks = group toks := by
  have hasc : (tokRuns [] toks).Pairwise fun a b => a.1 < b.1 := by
    have hrun : tokRuns [] toks = foldGroups [] (toks.map fun k => (k.1, [k.2])) := by
      rw [tokRuns, foldGroups, List.foldl_map]
    rw [hrun]
    refine foldGroups_ascending List.Pairwise.nil (List.pairwise_map.mpr h) (by simp)
  refine eq_group_of_valuesOf ⟨hasc, tokRuns_nonempty (by simp) toks⟩ fun d => ?_
  rw [ungroup_tokRuns]
  rfl

/-- Sorting the arrival groups and folding equal docids gives the grouping. -/
theorem foldGroups_sort_eq_group (toks : List Tok) :
    foldGroups [] ((tokRuns [] toks).insertionSort fun a b => a.1 ≤ b.1) = group toks := by
  have hmem : ∀ e ∈ (tokRuns [] toks).insertionSort (fun a b => a.1 ≤ b.1), e.2 ≠ [] := by
    intro e he
    exact tokRuns_nonempty (by simp) toks e ((List.mem_insertionSort _).mp he)
  refine eq_group_of_valuesOf
    ⟨foldGroups_sort_ascending _, foldGroups_nonempty (by simp) hmem⟩ fun d => ?_
  rw [valuesOf_foldGroups_sort, ungroup_tokRuns]
  rfl

/-- Positions by document: for tokens in order, as they came. -/
theorem flatMap_group_of_sorted {toks : List Tok} (h : toks.Pairwise fun a b => a.1 ≤ b.1) :
    (group toks).flatMap Prod.snd = toks.map Prod.snd := by
  rw [← tokRuns_eq_group h, flatMap_snd_eq, ungroup_tokRuns]
  rfl

/-- The 32-bit counters of a list of groups. -/
def freqsOf (g : List (Nat × List Nat)) : List Nat := g.map fun e => e.2.length % 2 ^ 32

@[simp] theorem length_freqsOf (g : List (Nat × List Nat)) : (freqsOf g).length = g.length :=
  List.length_map _

theorem freqsOf_cons (e : Nat × List Nat) (g : List (Nat × List Nat)) :
    freqsOf (e :: g) = e.2.length % 2 ^ 32 :: freqsOf g :=
  rfl

theorem freqsOf_append (g h : List (Nat × List Nat)) :
    freqsOf (g ++ h) = freqsOf g ++ freqsOf h :=
  List.map_append

theorem freqsOf_of_lt {g : List (Nat × List Nat)} (h : ∀ e ∈ g, e.2.length < 2 ^ 32) :
    freqsOf g = g.map fun e => e.2.length :=
  List.map_congr_left fun e he => Nat.mod_eq_of_lt (h e he)

/-- No group is longer than all of them. -/
theorem length_le_flatMap {g : List (Nat × List Nat)} {e : Nat × List Nat} (he : e ∈ g) :
    e.2.length ≤ (g.flatMap Prod.snd).length := by
  rw [List.length_flatMap]
  exact List.le_sum_of_mem (List.mem_map_of_mem he)

/-- Where every group holds a token there are at least as many tokens. -/
theorem length_le_of_nonempty {g : List (Nat × List Nat)} (h : ∀ e ∈ g, e.2 ≠ []) :
    g.length ≤ (g.flatMap Prod.snd).length := by
  rw [List.length_flatMap]
  calc g.length = (g.map fun _ => 1).sum := by simp
    _ ≤ (g.map fun e => e.2.length).sum := List.sum_le_sum fun e he =>
        List.length_pos_iff.mpr (h e he)

/-- The callback drains a streamed term completely. -/
def Drains (plan : TermPostings → List Nat) : Prop :=
  ∀ tp, tp.streamed = true → (plan tp).sum = tp.posTotal

/-- The callback never asks a streamed term for more positions than it announced. -/
def Restrained (plan : TermPostings → List Nat) : Prop :=
  ∀ tp, tp.streamed = true → (plan tp).sum ≤ tp.posTotal

theorem Drains.restrained {plan : TermPostings → List Nat} (h : Drains plan) : Restrained plan :=
  fun tp hs => (h tp hs).le

/-- The emitted term lays out a list of groups; a streamed one is wide, announces the
number of its positions and delivers those the callback asked for. -/
structure Lays (plan : TermPostings → List Nat) (allowStream : Bool) (e : Emitted)
    (hasPositions : Bool) (term : Bytes) (g : List (Nat × List Nat)) : Prop where
  term : e.postings.term = term
  docids : e.postings.docids = g.map Prod.fst
  freqs : e.postings.freqs = freqsOf g
  flat : e.postings.positionsFlat =
    if e.postings.streamed = false ∧ hasPositions = true then g.flatMap Prod.snd else []
  pulled : e.postings.streamed = true →
    e.pulled = (g.flatMap Prod.snd).take (plan e.postings).sum
  streamed : e.postings.streamed = true → allowStream = true ∧ hasPositions = true ∧
    kSlimDfThreshold ≤ g.length ∧ e.postings.posTotal = (g.flatMap Prod.snd).length
  wide : allowStream = true → hasPositions = true → 2 ^ 32 ≤ g.length →
    e.postings.streamed = true

/-- Drained completely, a term delivers all its positions. -/
theorem Lays.positions {plan : TermPostings → List Nat} {allowStream : Bool} {e : Emitted}
    {hasPositions : Bool} {term : Bytes} {g : List (Nat × List Nat)}
    (h : Lays plan allowStream e hasPositions term g)
    (hplan : allowStream = true → Drains plan) :
    e.positions = if hasPositions then g.flatMap Prod.snd else [] := by
  unfold Emitted.positions
  cases hs : e.postings.streamed with
  | false =>
      rw [if_neg (by simp), h.flat, hs]
      simp
  | true =>
      obtain ⟨hallow, hpos, _, htotal⟩ := h.streamed hs
      rw [if_pos rfl, if_pos hpos, h.pulled hs, hplan hallow _ hs, htotal, List.take_length]

/-- The arrays after the loop and the reorder, when nothing is streamed. -/
private theorem decoded_eq {p : Pool} {hasPositions : Bool} {t : Term} {slices : List Slice}
    {toks : List Tok} (h : TermHolds p hasPositions t slices toks)
    (hvalid : ∀ k ∈ toks, k.Valid) (hne : toks ≠ []) :
    t.head ≠ kNoChain ∧ (∀ keep : Bool, (keep = true → hasPositions = true) →
      decodeTokens p keep t.ntok (cursor t.head t.w.cur) 0 {} = flat keep (tokRuns [] toks)) ∧
    CursorAt p (cursor t.head t.w.cur) (encodeToks hasPositions none toks) := by
  have hbytes : encodeToks hasPositions none toks ≠ [] := by
    cases toks with
    | nil => exact absurd rfl hne
    | cons k toks =>
        rw [encodeToks, encodeTok]
        simp [encodeVarint64_ne_nil]
  rcases h.bytes with ⟨hnil, _⟩ | ⟨hhead, hholds⟩
  · exact absurd hnil hbytes
  · have hc := hholds.cursorAt hholds.length_le_cur
    refine ⟨hhead, fun keep hkeep => ?_, hc⟩
    have hdec := decodeTokens_spec hkeep toks (g := []) (c := cursor t.head t.w.cur) hvalid
      (by simp) (by simpa [ungroup] using h.count) hc
    have hnil : flat keep [] = {} := by simp [flat]
    rw [hnil, ← h.ntok] at hdec
    exact hdec

/-- **`to_postings` groups the term's tokens**, whatever order they came in:
a term that is not streamed carries docids, freqs and positions of the grouping;
a streamed one carries docids and freqs, is wide, and pumps the positions. -/
theorem toPostings_spec {p : Pool} {hasPositions : Bool} {t : Term} {slices : List Slice}
    {toks : List Tok} (h : TermHolds p hasPositions t slices toks)
    (hvalid : ∀ k ∈ toks, k.Valid) (hne : toks ≠ []) (term : Bytes) (allowStream : Bool) :
    let tp := toPostings p hasPositions term t allowStream
    tp.term = term ∧ tp.docids = (group toks).map Prod.fst ∧
      tp.freqs = (group toks).map (fun x => x.2.length) ∧
      (tp.streamed = false →
        tp.positionsFlat = if hasPositions then (group toks).flatMap Prod.snd else []) ∧
      (tp.streamed = true → tp.positionsFlat = []) ∧
      (tp.streamed = true → allowStream = true ∧ hasPositions = true ∧
        tp.posTotal = toks.length ∧ toks.Pairwise (fun a b => a.1 ≤ b.1) ∧
        kSlimDfThreshold ≤ (group toks).length) := by
  obtain ⟨hhead, hdec, hc⟩ := decoded_eq h hvalid hne
  have hntok : t.ntok ≠ 0 := by
    rw [h.ntok]
    simpa using hne
  unfold toPostings
  rw [if_neg (by simp [hntok, hhead])]
  by_cases hstream : (allowStream && hasPositions && t.sorted &&
      decide (kStreamPositionsTokenThreshold ≤ t.ntok)) = true
  · have hall : allowStream = true ∧ hasPositions = true ∧ t.sorted = true := by
      simp only [Bool.and_eq_true] at hstream
      exact ⟨hstream.1.1.1, hstream.1.1.2, hstream.1.2⟩
    have hsorted := h.sorted.mp hall.2.2
    have hflat : decodeTokens p (hasPositions && !true) t.ntok (cursor t.head t.w.cur) 0 {} =
        flat false (group toks) := by
      rw [← tokRuns_eq_group hsorted]
      simpa using hdec false (by simp)
    rw [hall.2.1] at hc
    obtain ⟨hpump, _⟩ := pumpChain_spec t.ntok hvalid (by simp) (by rw [h.ntok]) hc
    simp only [hstream, hflat, Bool.true_and, if_true]
    split
    · rename_i hwide
      refine ⟨rfl, rfl, rfl, by simp, fun _ => rfl,
        fun _ => ⟨hall.1, hall.2.1, h.ntok, hsorted, ?_⟩⟩
      simpa [flat] using hwide
    · refine ⟨rfl, rfl, rfl, fun _ => ?_, by simp, by simp⟩
      rw [hpump, h.ntok, List.take_length, if_pos hall.2.1,
        flatMap_group_of_sorted hsorted]
  · have hflag : (allowStream && hasPositions && t.sorted &&
        decide (kStreamPositionsTokenThreshold ≤ t.ntok)) = false := by simpa using hstream
    have hflat := hdec hasPositions (fun hkeep => hkeep)
    have hgroup : (if t.sorted then flat hasPositions (tokRuns [] toks)
        else sortByDocid (flat hasPositions (tokRuns [] toks)) hasPositions) =
        flat hasPositions (group toks) := by
      split
      · rename_i hs
        rw [tokRuns_eq_group (h.sorted.mp hs)]
      · rw [sortByDocid_flat, foldGroups_sort_eq_group]
        rw [ungroup_tokRuns]
        simpa [ungroup] using h.count
    simp only [hflag, Bool.not_false, Bool.and_true, Bool.false_and, Bool.false_eq_true, if_false,
      hflat, hgroup]
    exact ⟨trivial, rfl, rfl, fun _ => rfl, fun hfalse => hfalse.elim, fun hfalse => hfalse.elim⟩

/-- What a callback sees of a term from the arena: the grouping of its tokens. -/
theorem emitPostings_lays {p : Pool} {hasPositions : Bool} {t : Term} {slices : List Slice}
    {toks : List Tok} (h : TermHolds p hasPositions t slices toks)
    (hvalid : ∀ k ∈ toks, k.Valid) (hne : toks ≠ []) (term : Bytes) (allowStream : Bool)
    {plan : TermPostings → List Nat} (hplan : Restrained plan) :
    Lays plan allowStream (emitPostings p t plan (toPostings p hasPositions term t allowStream))
      hasPositions term (group toks) := by
  obtain ⟨hterm, hdocs, hfreqs, hflat, hempty, hstr⟩ :=
    toPostings_spec h hvalid hne term allowStream
  obtain ⟨_, _, hc⟩ := decoded_eq h hvalid hne
  have hlen : ((group toks).flatMap Prod.snd).length = toks.length := by
    rw [flatMap_snd_eq, List.length_map, (perm_ungroup_group toks).length_eq]
  have hsmall : ∀ e ∈ group toks, e.2.length < 2 ^ 32 := by
    intro e he
    have hle := length_le_flatMap he
    rw [hlen] at hle
    exact Nat.lt_of_le_of_lt hle h.count
  refine ⟨hterm, hdocs, hfreqs.trans (freqsOf_of_lt hsmall).symm, ?_, fun hs => ?_, fun hs => ?_,
    fun _ _ hwide => ?_⟩
  · show (toPostings p hasPositions term t allowStream).positionsFlat = _
    cases hs : (toPostings p hasPositions term t allowStream).streamed with
    | false =>
        simp only [emitPostings, hs, true_and]
        exact hflat hs
    | true =>
        simp only [emitPostings, hs, Bool.true_eq_false, false_and, if_false]
        exact hempty hs
  · obtain ⟨hallow, hpos, htotal, hsorted, _⟩ := hstr hs
    have hsum := hplan _ hs
    rw [hpos] at hc
    simp only [emitPostings] at hs ⊢
    rw [if_pos hs, pumpChains_spec _ hvalid (by simp) (by rw [← htotal]; exact hsum) hc,
      flatMap_group_of_sorted hsorted, List.map_take]
  · obtain ⟨hallow, hpos, htotal, hsorted, hwide⟩ := hstr hs
    exact ⟨hallow, hpos, hwide, htotal.trans hlen.symm⟩
  · have hle : (group toks).length ≤ toks.length := by
      rw [← hlen]
      exact length_le_of_nonempty (group_isGrouping toks).nonempty
    exact absurd h.count (Nat.not_lt.mpr (hwide.trans hle))

end Snii.Writer.SpimiTermBuffer
