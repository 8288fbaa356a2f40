import Snii.Query.Conjunction

/-!
# Position cursors

`PostingCursor` of `phrase_query.cpp`: a cursor walks the parts that a term kept,
forward only, and decodes the positions of a part once.  Over ascending documents that
the parts hold, every seek lands on its document and gives the document's own positions
(`streamCandidates_ok`).
-/

namespace Snii.Query.PositionCursor

open Snii.Lib.ByteReader Snii.Lib.Aligned Snii.Common
open Snii.Reader Snii.Query.DocidSetOps Snii.Query.Conjunction
open Snii.Encoding.Compression Snii.Writer.SpillRunCodec Snii.Writer.LogicalIndexWriter
open Snii.Format.PrxPod (Csr readPrxWindowCsr foldl_push)

/-! ## The cursor -/

/-- A cursor over the parts of a term: the part, the document inside it, and the part
whose positions are decoded. -/
structure PostingCursor where
  src : List PosChunk
  ci : Nat := 0
  li : Nat := 0
  decoded : Option (Nat × Csr) := none

/-- A part that is behind the target as a whole. -/
def behind (target : Nat) (chunk : PosChunk) : Bool :=
  match chunk.docids.getLast? with
  | none => true
  | some last => decide (last < target)

namespace PostingCursor

def seek (target : Nat) (cur : PostingCursor) : PostingCursor :=
  let skipped := ((cur.src.drop cur.ci).takeWhile (behind target)).length
  let ci := cur.ci + skipped
  let li := if skipped = 0 then cur.li else 0
  match cur.src[ci]? with
  | none => { cur with ci := ci, li := li }
  | some chunk =>
      { cur with
        ci := ci
        li := li + ((chunk.docids.drop li).takeWhile fun d => decide (d < target)).length }

/-- The positions of the current part, decoded unless they are already. -/
def decode (z : Zstd) (cur : PostingCursor) (chunk : PosChunk) : Result Csr :=
  match cur.decoded with
  | some (k, csr) => if k = cur.ci then .ok csr else read
  | none => read
where
  read : Result Csr := do
    let (csr, _) ← (readPrxWindowCsr z).run chunk.prx
    if csr.posOff.length ≠ chunk.docids.length + 1 then
      .error (.corruption "phrase_query: prx/dd doc-count mismatch")
    else .ok csr

end PostingCursor

/-- A document's range of the flat positions. -/
def span (csr : Csr) (li : Nat) : Result (List Nat) :=
  match csr.posOff[li]?, csr.posOff[li + 1]? with
  | some first, some last =>
      if last ≤ csr.posFlat.length then .ok ((csr.posFlat.take last).drop first)
      else .error .outOfBounds
  | _, _ => .error .outOfBounds

/-- The positions of the current document, and the cursor that has decoded them. -/
def PostingCursor.positions (z : Zstd) (cur : PostingCursor) : Result (List Nat × PostingCursor) :=
  match cur.src[cur.ci]? with
  | none => .error (.corruption "phrase_query: cursor positions out of range")
  | some chunk =>
      if cur.li ≥ chunk.docids.length then
        .error (.corruption "phrase_query: cursor positions out of range")
      else do
        let csr ← cur.decode z chunk
        let ps ← span csr cur.li
        pure (ps, { cur with decoded := some (cur.ci, csr) })

/-- The pass over ascending candidates: every cursor seeks the candidate, and the
candidate is visited with its positions, one list a term in phrase order. -/
def streamCandidates {β : Type} (z : Zstd) (visit : Nat → List (List Nat) → Option β) :
    List PostingCursor → List Nat → Result (List β)
  | _, [] => .ok []
  | cursors, d :: candidates => do
      let spans ← (cursors.map (PostingCursor.seek d)).mapM (PostingCursor.positions z)
      let rest ← streamCandidates z visit (spans.map Prod.snd) candidates
      pure ((visit d (spans.map Prod.fst)).toList ++ rest)

/-! ## Parts with their positions -/

variable {z : Zstd}

/-- A part that holds documents with their positions. -/
structure ChunkHolds (z : Zstd) (chunk : PosChunk) (rows : List (Nat × List Nat)) : Prop where
  docids : chunk.docids = rows.map Prod.fst
  csr : Reads (readPrxWindowCsr z) chunk.prx ((rows.map Prod.snd).foldl Csr.push Csr.empty)
  small : (rows.map Prod.snd).flatten.length < 2 ^ 32

theorem span_push {docs : List (List Nat)} (hsmall : docs.flatten.length < 2 ^ 32) {li : Nat}
    {ps : List Nat} (h : docs[li]? = some ps) :
    span (docs.foldl Csr.push Csr.empty) li = .ok ps := by
  obtain ⟨hlt, rfl⟩ := List.getElem?_eq_some_iff.mp h
  rw [foldl_push hsmall, span]
  have hget : ∀ k, k ≤ docs.length →
      ((List.range (docs.length + 1)).map fun i => (docs.take i).flatten.length)[k]? =
        some (docs.take k).flatten.length := by
    intro k hk
    rw [List.getElem?_map, List.getElem?_range (by omega)]
    rfl
  simp only [hget li (by omega), hget (li + 1) (by omega)]
  have htake : (docs.take (li + 1)).flatten = (docs.take li).flatten ++ docs[li] := by
    rw [List.take_succ_eq_append_getElem hlt, List.flatten_append]
    simp
  have hsplit : docs.flatten = (docs.take (li + 1)).flatten ++ (docs.drop (li + 1)).flatten := by
    rw [← List.flatten_append, List.take_append_drop]
  have hle : (docs.take (li + 1)).flatten.length ≤ docs.flatten.length := by
    rw [hsplit, List.length_append]
    omega
  rw [if_pos hle, hsplit, List.take_left, htake, List.drop_left]

theorem length_posOff {docs : List (List Nat)} (hsmall : docs.flatten.length < 2 ^ 32) :
    (docs.foldl Csr.push Csr.empty).posOff.length = docs.length + 1 := by
  rw [foldl_push hsmall, List.length_map, List.length_range]

/-! ## Seeking -/

/-- A scan stops at the first element that does not pass. -/
theorem length_takeWhile_eq {α : Type} {xs : List α} {p : α → Bool} {i : Nat} {x : α}
    (hx : xs[i]? = some x) (hstop : p x = false)
    (hpass : ∀ j y, j < i → xs[j]? = some y → p y = true) : (xs.takeWhile p).length = i := by
  induction xs generalizing i with
  | nil => cases hx
  | cons y xs ih =>
      cases i with
      | zero =>
          cases hx
          rw [List.takeWhile_cons_of_neg (by simp [hstop]), List.length_nil]
      | succ i =>
          have hy := hpass 0 y (Nat.zero_lt_succ i) rfl
          rw [List.takeWhile_cons_of_pos hy, List.length_cons, ih hx]
          intro j y' hj hy'
          exact hpass (j + 1) y' (by omega) hy'

/-- The same scan from an index on. -/
theorem scan_eq {α : Type} {xs : List α} {p : α → Bool} {n i : Nat} {x : α} (hle : n ≤ i)
    (hx : xs[i]? = some x) (hstop : p x = false)
    (hpass : ∀ j y, j < i → xs[j]? = some y → p y = true) :
    n + ((xs.drop n).takeWhile p).length = i := by
  have hlen : ((xs.drop n).takeWhile p).length = i - n := by
    apply length_takeWhile_eq (x := x) (by rwa [List.getElem?_drop, Nat.add_sub_cancel' hle]) hstop
    intro j y hj hy
    rw [List.getElem?_drop] at hy
    exact hpass (n + j) y (by omega) hy
  omega

theorem behind_iff {target : Nat} {chunk : PosChunk} (hasc : Ascending chunk.docids) :
    behind target chunk = true ↔ ∀ d ∈ chunk.docids, d < target := by
  rw [behind]
  cases hlast : chunk.docids.getLast? with
  | none =>
      rw [List.getLast?_eq_none_iff] at hlast
      simp [hlast]
  | some last =>
      simp only [decide_eq_true_eq]
      have hmem : last ∈ chunk.docids := List.mem_of_getLast? hlast
      constructor
      · intro hlt d hd
        have hne := List.ne_nil_of_mem hd
        rw [List.getLast?_eq_some_getLast hne, Option.some_inj] at hlast
        have hle := List.Pairwise.rel_getLast (hasc.imp Nat.le_of_lt) hd
        omega
      · exact fun hall => hall last hmem

section Seek

variable {cur : PostingCursor} {target : Nat}

/-- Everything the cursor has passed is before the target. -/
structure Passed (cur : PostingCursor) (target : Nat) : Prop where
  chunks : ∀ j chunk, j < cur.ci → cur.src[j]? = some chunk → ∀ d ∈ chunk.docids, d < target
  docs : ∀ chunk, cur.src[cur.ci]? = some chunk →
    ∀ j d, j < cur.li → chunk.docids[j]? = some d → d < target

theorem Passed.mono (h : Passed cur target) {later : Nat} (hle : target ≤ later) :
    Passed cur later :=
  ⟨fun j chunk hj hchunk d hd => Nat.lt_of_lt_of_le (h.chunks j chunk hj hchunk d hd) hle,
    fun chunk hchunk j d hj hd => Nat.lt_of_lt_of_le (h.docs chunk hchunk j d hj hd) hle⟩

/-- **A seek** lands on the target, wherever the parts hold it. -/
theorem seek_lands (hasc : Ascending (docsOf cur.src)) (htarget : target ∈ docsOf cur.src)
    (h : Passed cur target) :
    Passed (cur.seek target) target ∧ (cur.seek target).src = cur.src ∧
      (cur.seek target).decoded = cur.decoded ∧
      ∃ chunk, cur.src[(cur.seek target).ci]? = some chunk ∧
        chunk.docids[(cur.seek target).li]? = some target := by
  obtain ⟨chunk, hin, hd⟩ := List.mem_flatMap.mp htarget
  obtain ⟨i, hi⟩ := List.mem_iff_getElem?.mp hin
  obtain ⟨k, hk⟩ := List.mem_iff_getElem?.mp hd
  rw [docsOf, Ascending, List.pairwise_flatMap] at hasc
  have hchunk : Ascending chunk.docids := hasc.1 chunk hin
  -- all parts before the target's part are behind it
  have hearlier : ∀ j c, j < i → cur.src[j]? = some c → ∀ d ∈ c.docids, d < target := by
    intro j c hj hc d hd'
    obtain ⟨hjlt, rfl⟩ := List.getElem?_eq_some_iff.mp hc
    obtain ⟨hilt, rfl⟩ := List.getElem?_eq_some_iff.mp hi
    exact List.pairwise_iff_getElem.mp hasc.2 j i hjlt hilt hj d hd' target hd
  have hstop : behind target chunk = false := by
    rw [← Bool.not_eq_true, behind_iff hchunk]
    exact fun hall => Nat.lt_irrefl _ (hall target hd)
  have hle : cur.ci ≤ i := by
    by_contra hgt
    exact Nat.lt_irrefl _ (h.chunks i chunk (by omega) hi target hd)
  have hci : cur.ci + ((cur.src.drop cur.ci).takeWhile (behind target)).length = i := by
    apply scan_eq hle hi hstop
    intro j c hj hc
    rw [behind_iff (hasc.1 c (List.mem_of_getElem? hc))]
    exact hearlier j c hj hc
  have hbefore : ∀ j d, j < k → chunk.docids[j]? = some d → d < target := by
    intro j d hj hd'
    obtain ⟨hjlt, rfl⟩ := List.getElem?_eq_some_iff.mp hd'
    obtain ⟨hklt, rfl⟩ := List.getElem?_eq_some_iff.mp hk
    exact List.pairwise_iff_getElem.mp hchunk j k hjlt hklt hj
  -- inside the part the scan starts at the document it stood on, or at the first
  have hli : ∀ li, li = (if ((cur.src.drop cur.ci).takeWhile (behind target)).length = 0
      then cur.li else 0) →
      li + ((chunk.docids.drop li).takeWhile fun d => decide (d < target)).length = k := by
    intro li hdef
    have hle' : li ≤ k := by
      rw [hdef]
      split
      case isTrue hzero =>
        by_contra hgt
        rw [hzero, Nat.add_zero] at hci
        exact Nat.lt_irrefl _ (h.docs chunk (hci ▸ hi) k target (by omega) hk)
      case isFalse => exact Nat.zero_le k
    apply scan_eq hle' hk (by simp)
    intro j d hj hd'
    exact decide_eq_true (hbefore j d hj hd')
  have hseek : cur.seek target = { cur with ci := i, li := k } := by
    rw [PostingCursor.seek]
    simp only [hci, hi, hli _ rfl]
  rw [hseek]
  refine ⟨⟨hearlier, fun c hc j d hj hd' => ?_⟩, rfl, rfl, chunk, hi, hk⟩
  rw [show ({ cur with ci := i, li := k } : PostingCursor).ci = i from rfl] at hc
  rw [show ({ cur with ci := i, li := k } : PostingCursor).src = cur.src from rfl, hi] at hc
  cases hc
  exact hbefore j d hj hd'

end Seek

/-! ## Streaming -/

section Stream

variable {posAt : Nat → List Nat} {cur : PostingCursor} {target : Nat}

/-- The parts' own decoded positions, if any are decoded. -/
def DecodedOk (rowss : List (List (Nat × List Nat))) (cur : PostingCursor) : Prop :=
  ∀ k csr, cur.decoded = some (k, csr) →
    ∃ rows, rowss[k]? = some rows ∧ csr = (rows.map Prod.snd).foldl Csr.push Csr.empty

/-- A cursor over parts that hold a term's positions, before the target. -/
structure CursorOk (z : Zstd) (posAt : Nat → List Nat) (target : Nat) (cur : PostingCursor) :
    Prop where
  rows : ∃ rowss, List.Forall₂ (ChunkHolds z) cur.src rowss ∧
    (∀ x ∈ rowss.flatten, posAt x.1 = x.2) ∧ DecodedOk rowss cur
  ascending : Ascending (docsOf cur.src)
  passed : Passed cur target

theorem decode_ok {rowss : List (List (Nat × List Nat))} {chunk : PosChunk}
    {rows : List (Nat × List Nat)} (hdecoded : DecodedOk rowss cur)
    (hrows : rowss[cur.ci]? = some rows) (hholds : ChunkHolds z chunk rows) :
    cur.decode z chunk = .ok ((rows.map Prod.snd).foldl Csr.push Csr.empty) := by
  have hread : PostingCursor.decode.read z chunk =
      .ok ((rows.map Prod.snd).foldl Csr.push Csr.empty) := by
    have hlen : ¬ ((rows.map Prod.snd).foldl Csr.push Csr.empty).posOff.length ≠
        chunk.docids.length + 1 := by
      rw [length_posOff hholds.small, hholds.docids, List.length_map, List.length_map]
      exact not_not_intro rfl
    have hrun := hholds.csr []
    rw [List.append_nil] at hrun
    rw [PostingCursor.decode.read, hrun, ok_bind]
    exact if_neg hlen
  rw [PostingCursor.decode]
  cases hcached : cur.decoded with
  | none => exact hread
  | some x =>
      obtain ⟨k, csr⟩ := x
      obtain ⟨rows', hrows', hcsr⟩ := hdecoded k csr hcached
      simp only
      by_cases hk : k = cur.ci
      · rw [if_pos hk, hcsr]
        rw [hk, hrows] at hrows'
        cases hrows'
        rfl
      · rw [if_neg hk, hread]

/-- **One visit**: the cursor seeks a document of its parts and gives the document's
positions. -/
theorem CursorOk.visit (h : CursorOk z posAt target cur) {d : Nat} (hle : target ≤ d)
    (hd : d ∈ docsOf cur.src) :
    ∃ next, (cur.seek d).positions z = .ok (posAt d, next) ∧ CursorOk z posAt d next ∧
      next.src = cur.src := by
  obtain ⟨rowss, hrowss, hpos, hdecoded⟩ := h.rows
  obtain ⟨hpassed, hsrc, hkept, chunk, hchunk, hdoc⟩ :=
    seek_lands h.ascending hd (h.passed.mono hle)
  generalize cur.seek d = cur' at hpassed hsrc hkept hchunk hdoc
  have hdecoded' : DecodedOk rowss cur' := by
    intro k csr hk
    rw [hkept] at hk
    exact hdecoded k csr hk
  obtain ⟨hlt, hget⟩ := List.getElem?_eq_some_iff.mp hchunk
  have hlt' : cur'.ci < rowss.length := by rwa [← hrowss.length_eq]
  have hholds := hrowss.get hlt hlt'
  rw [List.get_eq_getElem, List.get_eq_getElem, hget] at hholds
  have hrows := List.getElem?_eq_getElem hlt'
  have hin : rowss[cur'.ci] ∈ rowss := List.getElem_mem hlt'
  generalize rowss[cur'.ci] = rows at hholds hrows hin
  rw [hholds.docids, List.getElem?_map, Option.map_eq_some_iff] at hdoc
  obtain ⟨x, hx, rfl⟩ := hdoc
  have hposAt : posAt x.1 = x.2 :=
    hpos x (List.mem_flatten.mpr ⟨rows, hin, List.mem_of_getElem? hx⟩)
  have hspan : span ((rows.map Prod.snd).foldl Csr.push Csr.empty) cur'.li = .ok x.2 :=
    span_push hholds.small (by rw [List.getElem?_map, hx]; rfl)
  have hli : ¬ cur'.li ≥ chunk.docids.length := by
    have := (List.getElem?_eq_some_iff.mp hx).1
    rw [hholds.docids, List.length_map]
    omega
  refine ⟨{ cur' with decoded := some (cur'.ci, (rows.map Prod.snd).foldl Csr.push Csr.empty) },
    ?_, ⟨⟨rowss, ?_, hpos, ?_⟩, ?_, ⟨hpassed.chunks, hpassed.docs⟩⟩, hsrc⟩
  · rw [PostingCursor.positions]
    simp only [hsrc, hchunk]
    rw [if_neg hli, decode_ok hdecoded' hrows hholds, ok_bind, hspan, ok_bind, hposAt]
    rfl
  · exact hsrc ▸ hrowss
  · intro k csr hk
    cases hk
    exact ⟨rows, hrows, rfl⟩
  · exact hsrc ▸ h.ascending

theorem visit_all {posAts : List (Nat → List Nat)} {cursors : List PostingCursor}
    (h : List.Forall₂ (fun posAt cur => CursorOk z posAt target cur) posAts cursors) {d : Nat}
    (hle : target ≤ d) (hd : ∀ cur ∈ cursors, d ∈ docsOf cur.src) :
    ∃ nexts, (cursors.map (PostingCursor.seek d)).mapM (PostingCursor.positions z) =
        .ok ((posAts.map fun posAt => posAt d).zip nexts) ∧
      List.Forall₂ (fun posAt cur => CursorOk z posAt d cur) posAts nexts ∧
      nexts.map PostingCursor.src = cursors.map PostingCursor.src := by
  induction h with
  | nil => exact ⟨[], rfl, .nil, rfl⟩
  | @cons posAt cur posAts cursors hcur _ ih =>
      obtain ⟨next, hnext, hok, hsrc⟩ := hcur.visit hle (hd cur List.mem_cons_self)
      obtain ⟨nexts, hnexts, hoks, hsrcs⟩ := ih fun c hc => hd c (List.mem_cons_of_mem _ hc)
      refine ⟨next :: nexts, ?_, .cons hok hoks, by rw [List.map_cons, List.map_cons, hsrc, hsrcs]⟩
      rw [List.map_cons, List.mapM_cons, hnext, ok_bind, hnexts]
      rfl

/-- **The pass** visits every candidate with the positions of all terms. -/
theorem streamCandidates_ok {β : Type} (visit : Nat → List (List Nat) → Option β)
    {posAts : List (Nat → List Nat)} {cursors : List PostingCursor}
    (h : List.Forall₂ (fun posAt cur => CursorOk z posAt target cur) posAts cursors)
    {candidates : List Nat} (hasc : Ascending candidates) (hle : ∀ d ∈ candidates, target ≤ d)
    (hin : ∀ d ∈ candidates, ∀ cur ∈ cursors, d ∈ docsOf cur.src) :
    streamCandidates z visit cursors candidates =
      .ok (candidates.filterMap fun d => visit d (posAts.map fun posAt => posAt d)) := by
  induction candidates generalizing target cursors with
  | nil => rfl
  | cons d candidates ih =>
      obtain ⟨nexts, hvisit, hoks, hsrcs⟩ :=
        visit_all h (hle d List.mem_cons_self) (hin d List.mem_cons_self)
      have hlen : (posAts.map fun posAt => posAt d).length = nexts.length := by
        rw [List.length_map, hoks.length_eq]
      have hnext : ∀ e ∈ candidates, ∀ cur ∈ nexts, e ∈ docsOf cur.src := by
        intro e he cur hcur
        have hmem : cur.src ∈ cursors.map PostingCursor.src := by
          rw [← hsrcs]
          exact List.mem_map_of_mem hcur
        obtain ⟨cur', hcur', hsame⟩ := List.mem_map.mp hmem
        rw [← hsame]
        exact hin e (List.mem_cons_of_mem _ he) cur' hcur'
      have hrest := ih hoks hasc.tail (fun e he => Nat.le_of_lt (hasc.lt he)) hnext
      rw [streamCandidates, hvisit, ok_bind, List.map_snd_zip (by omega),
        List.map_fst_zip (by omega), hrest, ok_bind, List.filterMap_cons]
      cases visit d (posAts.map fun posAt => posAt d) <;> rfl

end Stream

/-! ## Parts of a written posting -/

section Written

variable {c : EntryConfig} {tp : Emitted} {vs : List Window}

/-- The parts of a term hold its documents with their positions. -/
theorem chunkHolds_parts (h : TermWindows z c tp vs) (hprx : c.hasPrx = true)
    (hlen : tp.postings.freqs.length = tp.postings.docids.length)
    (hwidths : TermWidths tp.postings) (hfit : PositionsFit tp) :
    List.Forall₂ (ChunkHolds z) (vs.map (partOf true)) (windowRows tp vs) := by
  have hboth := forall₂_and (h.positions hprx hlen hfit) (h.counts hlen hwidths)
  rw [windowRows]
  apply forall₂_of_getElem?
  · rw [List.length_map, List.length_map, List.length_zip, List.length_map, hboth.length_eq,
      Nat.min_self]
  · intro k chunk rows hchunk hrows
    rw [List.getElem?_map, Option.map_eq_some_iff] at hchunk hrows
    obtain ⟨v, hv, rfl⟩ := hchunk
    obtain ⟨⟨docs, g⟩, hzip, rfl⟩ := hrows
    obtain ⟨g', hg', hholds, hcount⟩ := getElem?_of_forall₂ hboth hv
    rw [List.getElem?_zip_eq_some, List.getElem?_map, hv, hg'] at hzip
    obtain ⟨hdocs, hg⟩ := hzip
    cases hdocs
    cases hg
    have hcount : g.length = v.docs.length := hcount
    have hfst : (v.docs.zip g).map Prod.fst = v.docs := List.map_fst_zip (by omega)
    have hsnd : (v.docs.zip g).map Prod.snd = g := List.map_snd_zip (by omega)
    exact ⟨hfst.symm, hsnd.symm ▸ hholds.csr, hsnd.symm ▸ hholds.small⟩

/-- **A cursor over parts** that a term keeps gives the term's own positions. -/
theorem cursorOk_of_parts (h : TermWindows z c tp vs) (hprx : c.hasPrx = true)
    (hlen : tp.postings.freqs.length = tp.postings.docids.length)
    (hwidths : TermWidths tp.postings) (hasc : Ascending tp.postings.docids)
    (hfit : PositionsFit tp) {sel : List PosChunk} (hsel : sel.Sublist (vs.map (partOf true))) :
    CursorOk z (positionsAt tp) 0 { src := sel } := by
  have hall := chunkHolds_parts h hprx hlen hwidths hfit
  have heach : ∀ chunk ∈ sel, ∃ rows, ChunkHolds z chunk rows ∧ rows ∈ windowRows tp vs := by
    intro chunk hchunk
    obtain ⟨rows, hrows, hholds⟩ := exists_right_of_mem hall (hsel.subset hchunk)
    exact ⟨rows, hholds, hrows⟩
  obtain ⟨rowss, hrowss⟩ := exists_forall₂ heach
  constructor
  case rows =>
    refine ⟨rowss, hrowss.imp fun _ _ hx => hx.1, fun y hy => ?_, fun k csr hk => (by cases hk)⟩
    obtain ⟨rows, hrows, hin⟩ := List.mem_flatten.mp hy
    obtain ⟨chunk, -, -, hwindow⟩ := exists_left_of_mem hrowss hrows
    apply positionsAt_of_mem hasc hlen
    rw [h.rows hlen hwidths]
    exact List.mem_flatten.mpr ⟨rows, hwindow, hin⟩
  case ascending =>
    have hdocs : Ascending (docsOf (vs.map (partOf true))) := by
      rw [docsOf_parts, h.docs hlen]
      exact hasc
    exact hdocs.sublist (docsOf_sublist hsel)
  case passed =>
    exact ⟨fun j chunk hj => absurd hj (Nat.not_lt_zero j),
      fun chunk _ j d hj => absurd hj (Nat.not_lt_zero j)⟩

end Written

end Snii.Query.PositionCursor
