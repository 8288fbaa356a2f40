import Snii.Query.DocidUnion
import Snii.Reader.DictionaryRoundTrip

/-!
# Disjunctions

`boolean_query.cpp`: the distinct terms are looked up one by one and their postings
united.  A batch that succeeds has read each posting as it reads alone
(`readDocidPostingsBatched_iff`), so that the union is over the terms' own documents.
-/

namespace Snii.Query.BooleanOr

open Snii.Lib.ByteReader Snii.Lib.Aligned Snii.Common Snii.Io.FileReader Snii.Io.BatchRangeFetcher
open Snii.Reader Snii.Query.DocidPosting Snii.Query.DocidUnion Snii.Query.DocidSetOps
open Snii.Encoding.Compression Snii.Format.Dict
open Snii.Format.DictBlock (DictBlockBuilder Resolved)
open Snii.Format.FrqPrelude (WindowMeta FrqPreludeReader)
open Snii.Writer.SpillRunCodec Snii.Writer.LogicalIndexWriter Snii.Writer.CompoundWriter

/-! ## A batch that succeeds -/

variable {z : Zstd} {idx : LogicalIndexReader} {f : Fetched}

/-- Where the first loop puts a posting. -/
inductive PlannedIn (z : Zstd) (plans : Plans) (r : Resolved) : Prop
  | inline (docs : List Nat) (kind : r.entry.kind = .inline)
      (decoded : decodeInlineDocs z r.entry = .ok docs)
  | flat (i : Nat) (kind : r.entry.kind ≠ .inline) (enc : r.entry.enc ≠ .windowed)
      (mem : (i, r) ∈ plans.flat)
  | windowed (i : Nat) (kind : r.entry.kind ≠ .inline) (enc : r.entry.enc = .windowed)
      (valid : validateWindowedPrelude r.entry = .ok ()) (mem : (i, r) ∈ plans.window)

theorem planPostings_inv {rs : List Resolved} {i : Nat} {plans out : Plans}
    (h : planPostings z i rs plans = .ok out) :
    plans.flat ⊆ out.flat ∧ plans.window ⊆ out.window ∧ ∀ r ∈ rs, PlannedIn z out r := by
  induction rs generalizing i plans with
  | nil =>
      cases h
      exact ⟨List.Subset.refl _, List.Subset.refl _, fun r hr => nomatch hr⟩
  | cons r rs ih =>
      rw [planPostings] at h
      by_cases hkind : r.entry.kind = .inline
      · rw [if_pos hkind] at h
        obtain ⟨docs, hdocs, hrest⟩ := bind_eq_ok h
        obtain ⟨hflat, hwindow, hall⟩ := ih hrest
        exact ⟨hflat, hwindow, List.forall_mem_cons.mpr ⟨.inline docs hkind hdocs, hall⟩⟩
      · rw [if_neg hkind] at h
        by_cases henc : r.entry.enc = .windowed
        · rw [if_pos henc] at h
          obtain ⟨⟨⟩, hvalid, hrest⟩ := bind_eq_ok h
          obtain ⟨hflat, hwindow, hall⟩ := ih hrest
          refine ⟨hflat, fun x hx => hwindow (List.mem_append_left _ hx),
            List.forall_mem_cons.mpr ⟨.windowed i hkind henc hvalid ?_, hall⟩⟩
          exact hwindow (List.mem_append_right _ List.mem_cons_self)
        · rw [if_neg henc] at h
          obtain ⟨hflat, hwindow, hall⟩ := ih h
          refine ⟨fun x hx => hflat (List.mem_append_left _ hx), hwindow,
            List.forall_mem_cons.mpr ⟨.flat i hkind henc ?_, hall⟩⟩
          exact hflat (List.mem_append_right _ List.mem_cons_self)

theorem openWindowPreludes_inv {plans : List (Nat × Resolved)} {bs : List Bytes} {h : Nat}
    {preludes : List FrqPreludeReader} (hgets : f.GetsFrom h bs) (hlen : plans.length = bs.length)
    (hopen : openWindowPreludes f h plans = .ok preludes) :
    List.Forall₂ (fun b p => FrqPreludeReader.open b = .ok p) bs preludes := by
  induction plans generalizing h bs preludes with
  | nil =>
      cases List.length_eq_zero_iff.mp hlen.symm
      cases hopen
      exact .nil
  | cons x plans ih =>
      obtain ⟨b, bs, rfl⟩ := List.exists_cons_of_length_eq_add_one hlen.symm
      rw [openWindowPreludes, hgets.cons.1, ok_bind] at hopen
      obtain ⟨p, hp, hrest⟩ := bind_eq_ok hopen
      obtain ⟨ps, hps, hout⟩ := bind_eq_ok hrest
      cases hout
      exact .cons hp (ih hgets.cons.2 (by simpa using hlen) hps)

theorem decodeFlatPlans_inv {plans : List (Nat × Resolved)} {bs : List Bytes} {h : Nat}
    {docids out : List (List Nat)} (hgets : f.GetsFrom h bs) (hlen : plans.length = bs.length)
    (hdecode : decodeFlatPlans z f h plans docids = .ok out) :
    List.Forall₂ (fun x b => ∃ docs, decodeFlatDocs z x.2.entry b = .ok docs) plans bs := by
  induction plans generalizing h bs docids with
  | nil =>
      cases List.length_eq_zero_iff.mp hlen.symm
      exact .nil
  | cons x plans ih =>
      obtain ⟨b, bs, rfl⟩ := List.exists_cons_of_length_eq_add_one hlen.symm
      rw [decodeFlatPlans, hgets.cons.1, ok_bind] at hdecode
      obtain ⟨docs, hdocs, hrest⟩ := bind_eq_ok hdecode
      exact .cons ⟨docs, hdocs⟩ (ih hgets.cons.2 (by simpa using hlen) hrest)

theorem decodeWindowPlan_inv {ms : List WindowMeta} {bs : List Bytes} {h : Nat} {docs : List Nat}
    (hgets : f.GetsFrom h bs) (hlen : ms.length = bs.length)
    (hdecode : decodeWindowPlan z f h ms = .ok docs) :
    List.Forall₂ (fun m b => ∃ d, decodeWindowSlices z m b [] [] false false = .ok d) ms bs := by
  induction ms generalizing h bs docs with
  | nil =>
      cases List.length_eq_zero_iff.mp hlen.symm
      exact .nil
  | cons m ms ih =>
      obtain ⟨b, bs, rfl⟩ := List.exists_cons_of_length_eq_add_one hlen.symm
      rw [decodeWindowPlan, hgets.cons.1, ok_bind] at hdecode
      obtain ⟨d, hd, hnext⟩ := bind_eq_ok hdecode
      obtain ⟨rest, hrest, -⟩ := bind_eq_ok hnext
      exact .cons ⟨d, hd⟩ (ih hgets.cons.2 (by simpa using hlen) hrest)

/-- The windows of each posting, planned as rows with ranges. -/
theorem decodeWindowPlans_inv {plans : List (Nat × List (WindowMeta × Range))} {file : Bytes}
    {h : Nat} {docids out : List (List Nat)}
    (hgets : f.GetsFrom h (plans.flatMap fun x => x.2.map fun w => w.2.bytesIn file))
    (hdecode : decodeWindowPlans z f h (plans.map fun x => (x.1, x.2.map Prod.fst)) docids =
      .ok out) :
    ∀ x ∈ plans, ∀ w ∈ x.2,
      ∃ d, decodeWindowSlices z w.1 (w.2.bytesIn file) [] [] false false = .ok d := by
  induction plans generalizing h docids with
  | nil => exact fun x hx => nomatch hx
  | cons x plans ih =>
      rw [List.flatMap_cons] at hgets
      rw [List.map_cons, decodeWindowPlans] at hdecode
      obtain ⟨docs, hdocs, hrest⟩ := bind_eq_ok hdecode
      have hnext := hgets.append
      rw [List.length_map] at hnext hrest
      have heach := decodeWindowPlan_inv hnext.1 (by simp) hdocs
      rw [List.forall₂_map_left_iff, List.forall₂_map_right_iff, List.forall₂_same] at heach
      exact List.forall_mem_cons.mpr ⟨heach, ih hnext.2 hrest⟩

/-- A planned flat posting whose range was fetched and decoded. -/
theorem docsAt_flat {r : Resolved} {range : Range} {docs : List Nat}
    (hkind : r.entry.kind ≠ .inline) (henc : r.entry.enc ≠ .windowed)
    (hplan : planFlatDocs idx r = .ok range)
    (hat : At idx.file range.offset (range.bytesIn idx.file) ∧
      range.len = (range.bytesIn idx.file).length)
    (hdecoded : decodeFlatDocs z r.entry (range.bytesIn idx.file) = .ok docs) :
    DocsAt z idx r docs :=
  .flat range _ ⟨hkind, henc, hplan, hat.1, hat.2, hdecoded⟩

/-- A planned windowed posting whose ranges were fetched and decoded. -/
theorem docsAt_windows {r : Resolved} {prelude : FrqPreludeReader}
    {windows : List (WindowMeta × Range)}
    (hkind : r.entry.kind ≠ .inline) (henc : r.entry.enc = .windowed)
    (hvalid : validateWindowedPrelude r.entry = .ok ())
    (hat : At idx.file (preludeRange idx r).offset ((preludeRange idx r).bytesIn idx.file) ∧
      (preludeRange idx r).len = ((preludeRange idx r).bytesIn idx.file).length)
    (hopen : FrqPreludeReader.open ((preludeRange idx r).bytesIn idx.file) = .ok prelude)
    (hplan : planWindowDocs idx r prelude = .ok windows)
    (heach : ∀ w ∈ windows, (At idx.file w.2.offset (w.2.bytesIn idx.file) ∧
      w.2.len = (w.2.bytesIn idx.file).length) ∧
        ∃ d, decodeWindowSlices z w.1 (w.2.bytesIn idx.file) [] [] false false = .ok d) :
    ∃ docs, DocsAt z idx r docs := by
  have hwindows : ∀ w ∈ windows, ∃ x : WindowDocs, (x.row, x.range) = w ∧ x.Ok z idx := by
    intro w hw
    obtain ⟨hw', d, hd⟩ := heach w hw
    exact ⟨⟨w.1, w.2, w.2.bytesIn idx.file, d.docids⟩, rfl, hw'.1, hw'.2, d, hd, rfl⟩
  obtain ⟨xs, hxs⟩ := exists_forall₂ hwindows
  have hrows : xs.map (fun x => (x.row, x.range)) = windows := by
    have hmap := map_eq_of_forall₂ (f := id) (g := fun x : WindowDocs => (x.row, x.range))
      (fun _ _ hx => hx.1.symm) hxs
    rw [← hmap, List.map_id]
  refine ⟨_, .windowed _ prelude xs ⟨hkind, henc, hvalid, hat.1, hat.2, hopen, ?_, ?_⟩ rfl⟩
  · rw [hrows, hplan]
  · intro x hx
    obtain ⟨w, -, hok⟩ := exists_left_of_mem hxs hx
    exact hok.2

/-- **A batch that succeeds** has found the documents of every posting. -/
theorem docsAt_of_batched {rs : List Resolved} {docs : List (List Nat)}
    (h : readDocidPostingsBatched z idx rs = .ok docs) : ∀ r ∈ rs, ∃ d, DocsAt z idx r d := by
  rw [readDocidPostingsBatched] at h
  obtain ⟨plans, hplans, h⟩ := bind_eq_ok h
  obtain ⟨preludeFetch, hfetch₁, h⟩ := bind_eq_ok h
  obtain ⟨preludes, hopen, h⟩ := bind_eq_ok h
  obtain ⟨flat, hflat, h⟩ := bind_eq_ok h
  obtain ⟨windows, hwindows, h⟩ := bind_eq_ok h
  obtain ⟨docsFetch, hfetch₂, h⟩ := bind_eq_ok h
  obtain ⟨out, hout, hdecode⟩ := bind_eq_ok h
  obtain ⟨-, -, hplanned⟩ := planPostings_inv hplans
  obtain ⟨hgets₁, hat₁⟩ := fetch_gets hfetch₁
  obtain ⟨hgets₂, hat₂⟩ := fetch_gets hfetch₂
  have hopened := openWindowPreludes_inv hgets₁ (by simp) hopen
  rw [List.map_map, List.forall₂_map_left_iff] at hopened
  have hflat' := mapM_eq_ok hflat
  have hwindows' := mapM_eq_ok hwindows
  have hlen : windows.length = plans.window.length := by
    rw [← hwindows'.length_eq, List.length_zip, ← hopened.length_eq, Nat.min_self]
  rw [List.map_append] at hgets₂
  have hsplit := hgets₂.append
  rw [List.length_map, Nat.zero_add] at hsplit
  have hflats := decodeFlatPlans_inv hsplit.1 (by rw [List.length_map, hflat'.length_eq]) hout
  rw [List.forall₂_map_right_iff] at hflats
  have hitems : ((plans.window.map Prod.fst).zip windows).map Prod.snd = windows :=
    List.map_snd_zip (by rw [List.length_map, hlen])
  have hbytes : ((windows.flatten.map Prod.snd).map (Range.bytesIn idx.file)) =
      ((plans.window.map Prod.fst).zip windows).flatMap fun x =>
        x.2.map fun w => w.2.bytesIn idx.file := by
    conv_lhs => rw [← hitems]
    simp [List.map_flatten, List.flatMap_def, Function.comp_def]
  rw [hbytes] at hsplit
  rw [List.zip_map_right] at hdecode
  have heach := decodeWindowPlans_inv hsplit.2 hdecode
  intro r hr
  cases hplanned r hr with
  | inline docs hkind hdecoded => exact ⟨docs, .inline hkind hdecoded⟩
  | flat i hkind henc hmem =>
      obtain ⟨range, hrange, hplan, docs, hdocs⟩ :=
        exists_right_of_mem (forall₂_and hflat' hflats) hmem
      have hat := hat₂ range (List.mem_append_left _ hrange)
      exact ⟨docs, docsAt_flat hkind henc hplan hat hdocs⟩
  | windowed i hkind henc hvalid hmem =>
      rw [← List.map_fst_zip (Nat.le_of_eq hopened.length_eq)] at hmem
      obtain ⟨⟨x, prelude⟩, hin, rfl⟩ := List.mem_map.mp hmem
      have hprelude := (List.forall₂_iff_zip.mp hopened).2 hin
      obtain ⟨ws, hws, hplan⟩ := exists_right_of_mem hwindows' hin
      have hx : preludeRange idx r ∈ plans.window.map fun x => preludeRange idx x.2 :=
        List.mem_map_of_mem (List.of_mem_zip hin).1
      apply docsAt_windows hkind henc hvalid (hat₁ _ hx) hprelude hplan
      intro w hw
      constructor
      · apply hat₂ w.2 (List.mem_append_right _ (List.mem_map_of_mem _))
        exact List.mem_flatten.mpr ⟨ws, hws, hw⟩
      · rw [← hitems] at hws
        obtain ⟨x, hx, rfl⟩ := List.mem_map.mp hws
        exact heach x hx w hw

theorem readDocidPosting_ok {r : Resolved} {docs : List Nat} (hsize : idx.file.length < 2 ^ 64)
    (h : DocsAt z idx r docs) : readDocidPosting z idx r = .ok docs := by
  rw [readDocidPosting, readDocidPostingsBatched_ok hsize (.cons h .nil), ok_bind]
  rfl

theorem readDocidPosting_iff {r : Resolved} {docs : List Nat} (hsize : idx.file.length < 2 ^ 64) :
    readDocidPosting z idx r = .ok docs ↔ DocsAt z idx r docs := by
  refine ⟨fun h => ?_, readDocidPosting_ok hsize⟩
  have hread := h
  rw [readDocidPosting] at hread
  obtain ⟨batched, hbatched, -⟩ := bind_eq_ok hread
  obtain ⟨d, hd⟩ := docsAt_of_batched hbatched r List.mem_cons_self
  rw [readDocidPosting_ok hsize hd] at h
  cases h
  exact hd

/-- **A batch reads each posting as it reads alone**, at the posting's own index. -/
theorem readDocidPostingsBatched_iff {rs : List Resolved} {docs : List (List Nat)}
    (hsize : idx.file.length < 2 ^ 64) :
    readDocidPostingsBatched z idx rs = .ok docs ↔
      List.Forall₂ (fun r d => readDocidPosting z idx r = .ok d) rs docs := by
  constructor
  · intro h
    obtain ⟨found, hfound⟩ := exists_forall₂ (docsAt_of_batched h)
    rw [readDocidPostingsBatched_ok hsize hfound] at h
    cases h
    exact hfound.imp fun _ _ hd => readDocidPosting_ok hsize hd
  · intro h
    exact readDocidPostingsBatched_ok hsize (h.imp fun _ _ hd => (readDocidPosting_iff hsize).mp hd)

/-! ## Distinct terms -/

private theorem mem_destutter_ne {t x : Bytes} {l : List Bytes} :
    t ∈ l.destutter' (· ≠ ·) x ↔ t = x ∨ t ∈ l := by
  induction l generalizing x with
  | nil => simp
  | cons y l ih =>
      by_cases hxy : x = y
      · rw [List.destutter'_cons_neg _ (by simpa using hxy), ih, List.mem_cons, hxy]
        tauto
      · rw [List.destutter'_cons_pos _ hxy, List.mem_cons, ih, List.mem_cons]

theorem mem_uniqueTerms {terms : List Bytes} {t : Bytes} : t ∈ uniqueTerms terms ↔ t ∈ terms := by
  rw [uniqueTerms, ← (List.perm_insertionSort (· ≤ ·) terms).mem_iff]
  cases terms.insertionSort (· ≤ ·) with
  | nil => simp
  | cons x l => rw [List.destutter_cons', mem_destutter_ne, List.mem_cons]

/-! ## The disjunction -/

variable {env : BuildEnv} {renv : ReadEnv} {w : BuiltIndex} {blocks : List DictBlockBuilder}
  {region : Bytes} {dictOff : Nat}

theorem booleanOr_eq (h : Serves env renv idx w blocks region dictOff) (hs : SortedTerms w.input)
    (terms : List Bytes) :
    booleanOr renv idx terms = emitDocidUnion renv.zstd idx
      (((uniqueTerms terms).filterMap (entryOf blocks)).map (seen w.input)) := by
  rw [booleanOr]
  split
  case _ hnil =>
      rw [hnil]
      rfl
  case _ =>
      have hfound : (uniqueTerms terms).mapM (lookup renv idx) =
          .ok ((uniqueTerms terms).map fun t => (entryOf blocks t).map (seen w.input)) :=
        mapM_ok fun t _ => h.lookup hs t
      rw [hfound, ok_bind, List.filterMap_map, List.map_filterMap]
      rfl

/-- **A disjunction** over an index that serves what was written. -/
theorem booleanOr_returns (h : Serves env renv idx w blocks region dictOff)
    (hs : SortedTerms w.input) (terms : List Bytes) :
    Returns (booleanOr renv idx terms) fun d =>
      ∃ tp ∈ w.input.source.list, tp.postings.term ∈ terms ∧ d ∈ tp.postings.docids := by
  have hentry : ∀ r ∈ (uniqueTerms terms).filterMap (entryOf blocks),
      r ∈ blocks.flatMap resolve ∧ r.entry.term ∈ terms := by
    intro r hr
    obtain ⟨t, ht, hfind⟩ := List.mem_filterMap.mp hr
    obtain ⟨hin, hterm⟩ := entryOf_some hfind
    exact ⟨hin, hterm ▸ mem_uniqueTerms.mp ht⟩
  rw [booleanOr_eq h hs]
  apply (emitDocidUnion_terms h fun r hr => (hentry r hr).1).congr
  intro d
  constructor
  · rintro ⟨r, hr, tp, htp, hheld, hd⟩
    exact ⟨tp, htp, hheld.term ▸ (hentry r hr).2, hd⟩
  · rintro ⟨tp, htp, hterm, hd⟩
    obtain ⟨r, hr, hheld⟩ := exists_right_of_mem (holding h) htp
    rw [← hheld.term] at hterm
    have hin := List.mem_filterMap.mpr ⟨_, mem_uniqueTerms.mpr hterm, entryOf_mem h hs hr⟩
    exact ⟨r, hin, tp, htp, hheld, hd⟩

/-- A disjunction with a term whose block cannot be loaded returns nothing. -/
theorem booleanOr_unreadable {term : Bytes} (h : Unreadable renv idx term) (holds : Nat → Prop) :
    ¬ Returns (booleanOr renv idx [term]) holds := by
  rintro ⟨docs, hout, -, -⟩
  rw [booleanOr, if_neg (List.cons_ne_nil _ _)] at hout
  obtain ⟨found, hfound, -⟩ := bind_eq_ok hout
  obtain ⟨hit, -, hlookup⟩ := exists_right_of_mem (mapM_eq_ok hfound)
    (mem_uniqueTerms.mpr List.mem_cons_self)
  exact h.lookup_ne_ok hit hlookup

/-- **A disjunction is the union of its terms' documents**, over every written index
within the reader's cap.  A batch reads each posting as it reads alone, and the merge
of ascending lists is their union. -/
theorem booleanOr_exact {adds : List AddCall} {a : AddCall} (h : WrittenIndex env renv adds a)
    (hcaps : CapsOk env adds) :
    (∃ idx, OpensFrom env renv adds a idx ∧ ∀ terms, Returns (booleanOr renv idx terms) fun d =>
      ∃ tp ∈ a.input.source.list, tp.postings.term ∈ terms ∧ d ∈ tp.postings.docids) ∧
    (∀ (idx : LogicalIndexReader) rs docs, idx.file.length < 2 ^ 64 →
      (readDocidPostingsBatched renv.zstd idx rs = .ok docs ↔
        List.Forall₂ (fun r d => readDocidPosting renv.zstd idx r = .ok d) rs docs)) ∧
    ∀ lists, (∀ docs ∈ lists, Ascending docs) → Ascending (unionSortedMany lists) ∧
      ∀ d, d ∈ unionSortedMany lists ↔ ∃ docs ∈ lists, d ∈ docs := by
  refine ⟨?_, fun idx rs docs => readDocidPostingsBatched_iff, fun lists => unionSortedMany_spec⟩
  obtain ⟨idx, hopens, w, blocks, region, dictOff, -, hin, hserves⟩ := h.serves hcaps
  refine ⟨idx, hopens, fun terms => ?_⟩
  have hreturns := booleanOr_returns hserves (hin ▸ h.sorted) terms
  rwa [hin] at hreturns

theorem booleanOr_exact_repeats : ∃ idx,
    OpensFrom storeEnv storeReadEnv twoCalls positionalCall idx ∧
      Returns (booleanOr storeReadEnv idx [[99], [100], [97], [99]]) fun d =>
        ∃ tp ∈ positionalCall.input.source.list,
          tp.postings.term ∈ [[99], [100], [97], [99]] ∧ d ∈ tp.postings.docids := by
  obtain ⟨idx, hopens, hreturns⟩ := (booleanOr_exact positional_written capsOk_twoCalls).1
  exact ⟨idx, hopens, hreturns _⟩

/-- A disjunction of one written term, whose block is beyond the reader's cap. -/
theorem booleanOr_oversized :
    WrittenIndex (knowingEnv (List.replicate (2 ^ 29) 0)) (knowingReadEnv (List.replicate (2 ^ 29) 0))
        [oneCall (List.replicate (2 ^ 29) 0)] (oneCall (List.replicate (2 ^ 29) 0)) ∧
      ∃ idx, OpensFrom (knowingEnv (List.replicate (2 ^ 29) 0))
          (knowingReadEnv (List.replicate (2 ^ 29) 0)) [oneCall (List.replicate (2 ^ 29) 0)]
          (oneCall (List.replicate (2 ^ 29) 0)) idx ∧
        ¬ Returns (booleanOr (knowingReadEnv (List.replicate (2 ^ 29) 0)) idx
            [List.replicate (2 ^ 29) 0]) fun d =>
          ∃ tp ∈ (oneCall (List.replicate (2 ^ 29) 0)).input.source.list,
            tp.postings.term ∈ [List.replicate (2 ^ 29) 0] ∧ d ∈ tp.postings.docids := by
  have h := oversized_unreadable (oversized_replicate rfl)
  obtain ⟨hwritten, idx, hopens, hunreadable⟩ := h
  exact ⟨hwritten, idx, hopens, booleanOr_unreadable hunreadable _⟩

end Snii.Query.BooleanOr
