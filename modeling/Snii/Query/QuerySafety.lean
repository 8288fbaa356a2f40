import Snii.Query.IndexScoring
import Snii.Query.RegexpQuery
import Snii.Query.TermQuery
import Snii.Reader.ReaderSafety

/-!
# Queries over arbitrary bytes

Whatever bytes a file holds, the docid queries and the scored queries over an index that
was opened from it access nothing outside the buffers that were read.  Every handle of a
batch is one of its own requests and every region is checked against the block that it
is carved from, so the one part to blame is the opening of a window prelude, whose
declared sums may wrap (`reading_inside`).
-/

namespace Snii.Query.QuerySafety

open Snii.Lib.ByteReader Snii.Lib.Blame Snii.Lib.Aligned Snii.Common
open Snii.Io.FileReader Snii.Io.BatchRangeFetcher Snii.Reader Snii.Stats
open Snii.Query.DocidPosting Snii.Query.DocidUnion Snii.Query.CursorPostings
open Snii.Query.Conjunction Snii.Query.WildcardQuery Snii.Query.RegexpQuery
open Snii.Query.TermQuery Snii.Query.IndexCursors Snii.Query.IndexScoring
open Snii.Query.ScoringQuery (DocSort TermCursor)
open Snii.Query.Bm25Scorer (Bm25Params ScorerContext)
open Snii.Encoding.Compression Snii.Format Snii.Format.Dict Snii.Format.MetaSafety
open Snii.Format.DictBlock (Resolved)
open Snii.Format.FrqPrelude (WindowMeta FrqPreludeReader)
open Snii.Format.PayloadArrays
open Snii.Writer.LogicalIndexWriter Snii.Writer.CompoundWriter

/-- Some stretch of a file declares a sum that wraps, taken for a window prelude. -/
def PreludeWraps (file : Bytes) : Prop :=
  ∃ off len, off + len ≤ file.length ∧ ¬ FrqPrelude.SumsFit ((file.drop off).take len)

variable {z : Zstd} {env : ReadEnv} {idx : LogicalIndexReader} {r : Resolved} {f : Fetched}
  {gap : Nat} {reqs : List Range}

/-! ## Batches -/

/-- A batch checks its ranges against the file. -/
theorem fetch_ne_outOfBounds (file : Bytes) (gap : Nat) (reqs : List Range) :
    fetch file gap reqs ≠ .error .outOfBounds := by
  have hplace : ∀ segs r, placeRange gap segs r ≠ .error .outOfBounds := by
    intro segs r
    rw [placeRange]
    split
    · simp
    · repeat' split
      all_goals simp
  have hsweep : ∀ todo segs places, sweep gap segs places todo ≠ .error .outOfBounds := by
    intro todo
    induction todo with
    | nil =>
        intro segs places
        simp [sweep]
    | cons x todo ih =>
        intro segs places
        rw [sweep]
        exact bind_ne_error (hplace segs x.2) fun out _ => ih _ _
  apply bind_ne_error (hsweep _ _ _)
  intro swept _
  apply bind_ne_error (DictBlock.mapM_ne_error fun seg _ => readAt_ne_outOfBounds _ _ _)
  intro phys _
  simp [pure, Except.pure]

/-- A handle of the batch's own gives a stretch of the file. -/
theorem get_own {file : Bytes} (hf : fetch file gap reqs = .ok f) {k : Nat}
    (hk : k < reqs.length) : ∃ off len, off + len ≤ file.length ∧
      f.get k = .ok ((file.drop off).take len) := by
  obtain ⟨hget, hstop⟩ := get_fetch hf (List.getElem?_eq_getElem hk)
  exact ⟨_, _, hstop, hget⟩

/-- A slice is handed out for every range of the batch. -/
theorem get_ne_outOfBounds {file : Bytes} (hf : fetch file gap reqs = .ok f) {k : Nat}
    (hk : k < reqs.length) : f.get k ≠ .error .outOfBounds := by
  obtain ⟨off, len, -, hget⟩ := get_own hf hk
  rw [hget]
  simp

/-- **A prelude that was fetched** is opened inside its bytes, or its sums wrap. -/
theorem fetched_blames {file : Bytes} (hsize : file.length < 2 ^ 64)
    (hf : fetch file gap reqs = .ok f) {k : Nat} (hk : k < reqs.length) {bytes : Bytes}
    (hget : f.get k = .ok bytes) :
    Blames .outOfBounds (PreludeWraps file) (FrqPreludeReader.open bytes) := by
  obtain ⟨off, len, hle, hstretch⟩ := get_own hf hk
  rw [hget] at hstretch
  cases hstretch
  have hlen : ((file.drop off).take len).length < 2 ^ 64 := by
    rw [List.length_take, List.length_drop]
    omega
  exact (prelude_blames hlen).mono fun hwrap => ⟨off, len, hle, hwrap⟩

/-! ## Ranges -/

/-- Locating a flat posting touches no byte. -/
theorem resolveWindow_ne_outOfBounds (ref : PerIndexMeta.RegionRef)
    (base offDelta totalLen preludeLen : Nat) :
    resolveWindow ref base offDelta totalLen preludeLen ≠ .error .outOfBounds := by
  rw [resolveWindow]
  simp only
  repeat' split
  all_goals simp

theorem inBounds_ne_outOfBounds (off len total : Nat) :
    inBounds off len total ≠ .error .outOfBounds := by
  rw [inBounds]
  split <;> simp

/-- The rows of a prelude are asked for by checked numbers. -/
theorem window_ne_outOfBounds (prelude : FrqPreludeReader) (w : Nat) :
    prelude.window w ≠ .error .outOfBounds := by
  rw [FrqPreludeReader.window]
  split <;> simp

theorem resolveBlocks_ne_outOfBounds (idx : LogicalIndexReader) (e : DictEntry) (frqBase : Nat)
    (prelude : FrqPreludeReader) :
    resolveBlocks idx e frqBase prelude ≠ .error .outOfBounds := by
  rw [resolveBlocks]
  simp only
  repeat' split
  all_goals simp

/-- Planning a window touches no byte. -/
theorem windowedWindowRange_ne_outOfBounds (idx : LogicalIndexReader) (r : Resolved)
    (prelude : FrqPreludeReader) (w : Nat) (wantPositions wantFreq : Bool) :
    windowedWindowRange idx r prelude w wantPositions wantFreq ≠ .error .outOfBounds := by
  have hfreq : ∀ g m, freqRange g m wantFreq ≠ .error .outOfBounds := by
    intro g m
    rw [freqRange]
    split
    · exact bind_ne_error (inBounds_ne_outOfBounds _ _ _) fun _ _ => by simp [pure, Except.pure]
    · simp
  have hprx : ∀ m, prxRange idx r.entry r.prxBase prelude m wantPositions ≠
      .error .outOfBounds := by
    intro m
    rw [prxRange]
    split
    · split
      · simp
      · exact bind_ne_error (inBounds_ne_outOfBounds _ _ _) fun _ _ => by
          simp [pure, Except.pure]
    · simp
  apply bind_ne_error (resolveBlocks_ne_outOfBounds _ _ _ _)
  intro g _
  apply bind_ne_error (window_ne_outOfBounds _ _)
  intro m _
  apply bind_ne_error (inBounds_ne_outOfBounds _ _ _)
  intro _ _
  apply bind_ne_error (hfreq g m)
  intro freq _
  apply bind_ne_error (hprx m)
  intro prx _
  simp [pure, Except.pure]

/-! ## Windows -/

/-- Decoding a window stays inside its slices. -/
theorem decodeWindowSlices_ne_outOfBounds (z : Zstd) (m : WindowMeta)
    (dd freq prx : Bytes) (wantPositions wantFreq : Bool) :
    decodeWindowSlices z m dd freq prx wantPositions wantFreq ≠ .error .outOfBounds := by
  have hpositions : ∀ n, decodePositions z prx n ≠ .error .outOfBounds := by
    intro n
    apply bind_ne_error (avoids_readPrxWindow z prx)
    intro ps _
    simp only
    split <;> simp
  apply bind_ne_error (decodeDdRegion_ne_outOfBounds _ _ _ _)
  intro docids _
  split
  · simp
  · apply bind_ne_error
    · split
      · exact decodeFreqRegion_ne_outOfBounds _ _ _ _
      · simp
    · intro freqs _
      apply bind_ne_error
      · split
        · exact hpositions _
        · simp
      · intro positions _
        simp [pure, Except.pure]

/-- A carved region is compared with its block first. -/
theorem carve_ne_outOfBounds (block : Bytes) (off len : Nat) :
    carve block off len ≠ .error .outOfBounds := by
  apply bind_ne_error (inBounds_ne_outOfBounds _ _ _)
  intro _ hin
  have hle : off + len ≤ block.length := by
    rw [inBounds] at hin
    split at hin
    · cases hin
    · omega
  rw [subslice, if_neg (by omega)]
  simp

/-- Decoding windows stays inside the blocks. -/
theorem decodeWindows_ne_outOfBounds (z : Zstd) (ddBlock freqBlock prxRegion : Bytes)
    (wantPositions wantFreq : Bool) (out : DecodedPosting) (ms : List WindowMeta) :
    decodeWindows z ddBlock freqBlock prxRegion wantPositions wantFreq out ms ≠
      .error .outOfBounds := by
  have hcarve : ∀ (want : Bool) block off len,
      (if want then carve block off len else .ok []) ≠ .error .outOfBounds := by
    intro want block off len
    split
    · exact carve_ne_outOfBounds _ _ _
    · simp
  induction ms generalizing out with
  | nil => simp [decodeWindows]
  | cons m ms ih =>
      have hwindow : decodeWindow z m ddBlock freqBlock prxRegion wantPositions wantFreq ≠
          .error .outOfBounds := by
        apply bind_ne_error (carve_ne_outOfBounds _ _ _)
        intro dd _
        apply bind_ne_error (hcarve _ _ _ _)
        intro freq _
        apply bind_ne_error (hcarve _ _ _ _)
        exact fun prx _ => decodeWindowSlices_ne_outOfBounds _ _ _ _ _ _ _
      rw [decodeWindows]
      exact bind_ne_error hwindow fun window _ => ih _

/-- Only a wrapped prelude leads out of bounds. -/
theorem fetchWindowedPrelude_blames (hsize : idx.file.length < 2 ^ 64) (e : DictEntry)
    (frqBase : Nat) : Blames .outOfBounds (PreludeWraps idx.file)
      (fetchWindowedPrelude idx e frqBase) := by
  rw [fetchWindowedPrelude]
  apply Blames.ite (fun _ => .error (by simp))
  intro _
  apply Blames.ite (fun _ => .error (by simp))
  intro _
  apply Blames.bind (.of_ne (fetch_ne_outOfBounds _ _ _))
  intro f hf
  apply Blames.bind (.of_ne (get_ne_outOfBounds hf Nat.zero_lt_one))
  exact fun bytes hget => fetched_blames hsize hf Nat.zero_lt_one hget

/-- **A whole windowed posting** blames its prelude alone. -/
theorem readWindowedPosting_blames (z : Zstd) (hsize : idx.file.length < 2 ^ 64) (r : Resolved)
    (wantPositions wantFreq : Bool) : Blames .outOfBounds (PreludeWraps idx.file)
      (readWindowedPosting z idx r wantPositions wantFreq) := by
  have hcount : ∀ g, (blockRequests idx r g wantPositions wantFreq).length =
      1 + (if wantFreq then 1 else 0) + if wantPositions then 1 else 0 := by
    intro g
    cases wantPositions <;> cases wantFreq <;> rfl
  rw [readWindowedPosting]
  apply (fetchWindowedPrelude_blames hsize _ _).bind
  intro prelude _
  apply Blames.ite (fun _ => .error (by simp))
  intro _
  apply Blames.bind (.of_ne (resolveBlocks_ne_outOfBounds _ _ _ _))
  intro g _
  apply Blames.bind (.of_ne (fetch_ne_outOfBounds _ _ _))
  intro f hf
  have hlen := hcount g
  have hget : ∀ k, k < (blockRequests idx r g wantPositions wantFreq).length →
      f.get k ≠ .error .outOfBounds := fun k hk => get_ne_outOfBounds hf hk
  apply Blames.of_ne
  apply bind_ne_error (hget 0 (by omega))
  intro ddBlock _
  apply bind_ne_error
  · split
    · rename_i hwant
      rw [if_pos hwant] at hlen
      exact hget 1 (by omega)
    · simp
  · intro freqBlock _
    apply bind_ne_error
    · split
      · rename_i hwant
        rw [if_pos hwant] at hlen
        apply hget
        split
        · rename_i hfreq
          rw [if_pos hfreq] at hlen
          omega
        · omega
      · simp
    · exact fun prxRegion _ => decodeWindows_ne_outOfBounds _ _ _ _ _ _ _ _

/-! ## Docids in batches -/

theorem decodeFlatDocs_ne_outOfBounds (z : Zstd) (e : DictEntry) (dd : Bytes) :
    decodeFlatDocs z e dd ≠ .error .outOfBounds := decodeDdRegion_ne_outOfBounds _ _ _ _

/-- Planning decodes the inline postings in place. -/
theorem planPostings_safe (z : Zstd) (i : Nat) (rs : List Resolved) (plans : Plans) :
    planPostings z i rs plans ≠ .error .outOfBounds ∧
      ∀ out, planPostings z i rs plans = .ok out → out.docids.length = plans.docids.length := by
  have hinline : ∀ e, decodeInlineDocs z e ≠ .error .outOfBounds := by
    intro e
    rw [decodeInlineDocs]
    split
    · simp
    · exact decodeFlatDocs_ne_outOfBounds _ _ _
  have hvalid : ∀ e, validateWindowedPrelude e ≠ .error .outOfBounds := by
    intro e
    rw [validateWindowedPrelude]
    repeat' split
    all_goals simp
  induction rs generalizing i plans with
  | nil =>
      refine ⟨by simp [planPostings], fun out hout => ?_⟩
      cases hout
      rfl
  | cons r rs ih =>
      rw [planPostings]
      split
      · constructor
        · exact bind_ne_error (hinline _) fun docs _ => (ih _ _).1
        · intro out hout
          obtain ⟨docs, -, hout⟩ := bind_eq_ok hout
          rw [(ih _ _).2 out hout, List.length_set]
      · split
        · constructor
          · exact bind_ne_error (hvalid _) fun _ _ => (ih _ _).1
          · intro out hout
            obtain ⟨_, -, hout⟩ := bind_eq_ok hout
            rw [(ih _ _).2 out hout]
        · exact ih _ _

/-- Preludes of a batch: only a wrapped one leads out of bounds. -/
theorem openWindowPreludes_blames {file : Bytes} (hsize : file.length < 2 ^ 64)
    (hf : fetch file gap reqs = .ok f) {h : Nat} {plans : List (Nat × Resolved)}
    (hin : h + plans.length ≤ reqs.length) :
    Blames .outOfBounds (PreludeWraps file) (openWindowPreludes f h plans) := by
  induction plans generalizing h with
  | nil => exact .ok []
  | cons x plans ih =>
      rw [List.length_cons] at hin
      rw [openWindowPreludes]
      apply Blames.bind (.of_ne (get_ne_outOfBounds hf (by omega)))
      intro bytes hget
      apply (fetched_blames hsize hf (by omega) hget).bind
      intro prelude _
      apply (ih (by omega)).bind
      exact fun rest _ => .ok _

theorem planFlatDocs_ne_outOfBounds (idx : LogicalIndexReader) (r : Resolved) :
    planFlatDocs idx r ≠ .error .outOfBounds := by
  apply bind_ne_error (resolveWindow_ne_outOfBounds _ _ _ _ _)
  intro win _
  have hlen : slimDocsFetchLen r.entry win.2 ≠ .error .outOfBounds := by
    rw [slimDocsFetchLen]
    split <;> simp
  exact bind_ne_error hlen fun n _ => by simp [pure, Except.pure]

theorem planWindowDocs_ne_outOfBounds (idx : LogicalIndexReader) (r : Resolved)
    (prelude : FrqPreludeReader) : planWindowDocs idx r prelude ≠ .error .outOfBounds := by
  apply DictBlock.mapM_ne_error
  intro w _
  apply bind_ne_error (windowedWindowRange_ne_outOfBounds _ _ _ _ _ _)
  intro range _
  exact bind_ne_error (window_ne_outOfBounds _ _) fun m _ => by simp [pure, Except.pure]

/-- The flat postings of a batch, each into its place. -/
theorem decodeFlatPlans_safe {file : Bytes} (z : Zstd) (hf : fetch file gap reqs = .ok f) {h : Nat}
    {plans : List (Nat × Resolved)} (hin : h + plans.length ≤ reqs.length)
    (out : List (List Nat)) :
    decodeFlatPlans z f h plans out ≠ .error .outOfBounds ∧
      ∀ docs, decodeFlatPlans z f h plans out = .ok docs → docs.length = out.length := by
  induction plans generalizing h out with
  | nil =>
      refine ⟨by simp [decodeFlatPlans], fun docs hdocs => ?_⟩
      cases hdocs
      rfl
  | cons x plans ih =>
      rw [List.length_cons] at hin
      have hlater := fun docs => ih (show h + 1 + plans.length ≤ reqs.length by omega)
        (out.set x.1 docs)
      rw [decodeFlatPlans]
      constructor
      · apply bind_ne_error (get_ne_outOfBounds hf (by omega))
        intro bytes _
        exact bind_ne_error (decodeFlatDocs_ne_outOfBounds _ _ _) fun docs _ => (hlater docs).1
      · intro docs hdocs
        obtain ⟨bytes, -, hdocs⟩ := bind_eq_ok hdocs
        obtain ⟨one, -, hdocs⟩ := bind_eq_ok hdocs
        rw [(hlater one).2 docs hdocs, List.length_set]

theorem decodeWindowPlan_ne_outOfBounds {file : Bytes} (z : Zstd)
    (hf : fetch file gap reqs = .ok f) {h : Nat} {ms : List WindowMeta}
    (hin : h + ms.length ≤ reqs.length) : decodeWindowPlan z f h ms ≠ .error .outOfBounds := by
  induction ms generalizing h with
  | nil => simp [decodeWindowPlan]
  | cons m ms ih =>
      rw [List.length_cons] at hin
      rw [decodeWindowPlan]
      apply bind_ne_error (get_ne_outOfBounds hf (by omega))
      intro bytes _
      apply bind_ne_error (decodeWindowSlices_ne_outOfBounds _ _ _ _ _ _ _)
      intro window _
      exact bind_ne_error (ih (by omega)) fun rest _ => by simp [pure, Except.pure]

/-- The windowed postings of a batch, each into its place. -/
theorem decodeWindowPlans_safe {file : Bytes} (z : Zstd) (hf : fetch file gap reqs = .ok f)
    {h : Nat} {plans : List (Nat × List WindowMeta)}
    (hin : h + (plans.map fun x => x.2.length).sum ≤ reqs.length) (out : List (List Nat)) :
    decodeWindowPlans z f h plans out ≠ .error .outOfBounds ∧
      ∀ docs, decodeWindowPlans z f h plans out = .ok docs → docs.length = out.length := by
  induction plans generalizing h out with
  | nil =>
      refine ⟨by simp [decodeWindowPlans], fun docs hdocs => ?_⟩
      cases hdocs
      rfl
  | cons x plans ih =>
      rw [List.map_cons, List.sum_cons] at hin
      have hlater := fun docs => ih (show h + x.2.length +
        (plans.map fun x => x.2.length).sum ≤ reqs.length by omega) (out.set x.1 docs)
      rw [decodeWindowPlans]
      constructor
      · exact bind_ne_error (decodeWindowPlan_ne_outOfBounds z hf (by omega)) fun docs _ =>
          (hlater docs).1
      · intro docs hdocs
        obtain ⟨one, -, hdocs⟩ := bind_eq_ok hdocs
        rw [(hlater one).2 docs hdocs, List.length_set]

/-- **A batch of postings** blames a prelude alone, and answers each of them. -/
theorem readDocidPostingsBatched_safe (z : Zstd) (hsize : idx.file.length < 2 ^ 64)
    (rs : List Resolved) :
    Blames .outOfBounds (PreludeWraps idx.file) (readDocidPostingsBatched z idx rs) ∧
      ∀ docs, readDocidPostingsBatched z idx rs = .ok docs → docs.length = rs.length := by
  obtain ⟨hplan, hplanLen⟩ := planPostings_safe z 0 rs { docids := List.replicate rs.length [] }
  -- every handle of the second round is one of its requests
  have hhandles : ∀ (plans : Plans) (preludes : List FrqPreludeReader)
      (flat : List Range) (windows : List (List (WindowMeta × Range))),
      plans.flat.mapM (fun x => planFlatDocs idx x.2) = .ok flat →
      (plans.window.zip preludes).mapM (fun x => planWindowDocs idx x.1.2 x.2) = .ok windows →
        0 + plans.flat.length ≤ (flat ++ windows.flatten.map Prod.snd).length ∧
        flat.length + (((plans.window.map Prod.fst).zip
          (windows.map fun ws => ws.map Prod.fst)).map fun x => x.2.length).sum ≤
            (flat ++ windows.flatten.map Prod.snd).length := by
    intro plans preludes flat windows hflat hwindows
    have hflatLen := (mapM_eq_ok hflat).length_eq
    have hwindowsLen := (mapM_eq_ok hwindows).length_eq
    rw [List.length_zip] at hwindowsLen
    have hzip : (((plans.window.map Prod.fst).zip
        (windows.map fun ws => ws.map Prod.fst)).map fun x => x.2.length) =
        windows.map List.length := by
      have hle : (windows.map fun ws => ws.map Prod.fst).length ≤
          (plans.window.map Prod.fst).length := by
        rw [List.length_map, List.length_map]
        omega
      have hsnd := List.map_snd_zip hle
      calc _ = (((plans.window.map Prod.fst).zip
            (windows.map fun ws => ws.map Prod.fst)).map Prod.snd).map List.length := by
              rw [List.map_map]; rfl
        _ = windows.map List.length := by
              rw [hsnd, List.map_map]
              exact List.map_congr_left fun ws _ => List.length_map _
    rw [hzip, List.length_append, List.length_map, List.length_flatten]
    omega
  rw [readDocidPostingsBatched]
  constructor
  · apply Blames.bind (.of_ne hplan)
    intro plans _
    apply Blames.bind (.of_ne (fetch_ne_outOfBounds _ _ _))
    intro f hf
    apply (openWindowPreludes_blames hsize hf (by rw [List.length_map]; omega)).bind
    intro preludes _
    apply Blames.bind (.of_ne (DictBlock.mapM_ne_error fun x _ => planFlatDocs_ne_outOfBounds _ _))
    intro flat hflat
    apply Blames.bind (.of_ne (DictBlock.mapM_ne_error fun x _ =>
      planWindowDocs_ne_outOfBounds _ _ _))
    intro windows hwindows
    obtain ⟨hflatIn, hwindowsIn⟩ := hhandles plans preludes flat windows hflat hwindows
    apply Blames.bind (.of_ne (fetch_ne_outOfBounds _ _ _))
    intro g hg
    apply Blames.bind (.of_ne (decodeFlatPlans_safe z hg hflatIn _).1)
    exact fun out _ => .of_ne (decodeWindowPlans_safe z hg hwindowsIn out).1
  · intro docs hdocs
    obtain ⟨plans, hplans, hdocs⟩ := bind_eq_ok hdocs
    obtain ⟨f, -, hdocs⟩ := bind_eq_ok hdocs
    obtain ⟨preludes, -, hdocs⟩ := bind_eq_ok hdocs
    obtain ⟨flat, hflat, hdocs⟩ := bind_eq_ok hdocs
    obtain ⟨windows, hwindows, hdocs⟩ := bind_eq_ok hdocs
    obtain ⟨hflatIn, hwindowsIn⟩ := hhandles plans preludes flat windows hflat hwindows
    obtain ⟨g, hg, hdocs⟩ := bind_eq_ok hdocs
    obtain ⟨out, hout, hdocs⟩ := bind_eq_ok hdocs
    rw [(decodeWindowPlans_safe z hg hwindowsIn out).2 docs hdocs,
      (decodeFlatPlans_safe z hg hflatIn _).2 out hout, hplanLen plans hplans,
      List.length_replicate]

/-- Reading one posting goes out of bounds by a wrapped prelude only. -/
theorem readDocidPosting_blames (z : Zstd) (hsize : idx.file.length < 2 ^ 64) (r : Resolved) :
    Blames .outOfBounds (PreludeWraps idx.file) (readDocidPosting z idx r) := by
  obtain ⟨hbatch, hlen⟩ := readDocidPostingsBatched_safe z hsize [r]
  rw [readDocidPosting]
  apply hbatch.bind
  intro batched hbatched
  have hone := hlen batched hbatched
  cases batched with
  | nil => cases hone
  | cons docs rest => exact .ok docs

/-! ## Unions -/

/-- The same for a term query. -/
theorem termQuery_blames (env : ReadEnv) (hsize : idx.file.length < 2 ^ 64) (t : Bytes) :
    Blames .outOfBounds (PreludeWraps idx.file) (termQuery env idx t) := by
  rw [termQuery]
  apply Blames.bind (.of_ne (lookup_ne_outOfBounds env idx t))
  intro hit _
  cases hit with
  | none => exact .ok []
  | some r => exact readDocidPosting_blames _ hsize r

/-- The same for a union. -/
theorem emitDocidUnion_blames (z : Zstd) (hsize : idx.file.length < 2 ^ 64) (rs : List Resolved) :
    Blames .outOfBounds (PreludeWraps idx.file) (emitDocidUnion z idx rs) := by
  rw [emitDocidUnion]
  apply Blames.ite (fun _ => .ok [])
  intro _
  apply (readDocidPostingsBatched_safe z hsize rs).1.bind
  exact fun docs _ => .ok _

/-- The same for a union over expanded terms. -/
theorem emitExpandedDocidUnion_blames (env : ReadEnv) (hsize : idx.file.length < 2 ^ 64)
    (pre : Bytes) (accepts : Bytes → Bool) :
    Blames .outOfBounds (PreludeWraps idx.file) (emitExpandedDocidUnion env idx pre accepts) := by
  rw [emitExpandedDocidUnion]
  apply Blames.bind (.of_ne (prefixTerms_ne_outOfBounds env idx pre))
  exact fun hits _ => emitDocidUnion_blames _ hsize _

/-- The same for a disjunction. -/
theorem booleanOr_blames (env : ReadEnv) (hsize : idx.file.length < 2 ^ 64) (terms : List Bytes) :
    Blames .outOfBounds (PreludeWraps idx.file) (booleanOr env idx terms) := by
  rw [booleanOr]
  apply Blames.ite (fun _ => .ok [])
  intro _
  apply Blames.bind (.of_ne (DictBlock.mapM_ne_error fun t _ => lookup_ne_outOfBounds env idx t))
  exact fun found _ => emitDocidUnion_blames _ hsize _

/-! ## Conjunctions -/

/-- The handles that a plan will use are below `n`. -/
structure HandlesBelow (n : Nat) (p : TermPlan) : Prop where
  prelude : p.windowed = true → p.preludeHandle < n
  frq : p.podRef = true → p.windowed = false → p.frqHandle < n

/-- Handles stay valid when the batch grows. -/
theorem HandlesBelow.mono {n m : Nat} {p : TermPlan} (h : HandlesBelow n p) (hle : n ≤ m) :
    HandlesBelow m p :=
  ⟨fun hw => Nat.lt_of_lt_of_le (h.prelude hw) hle,
    fun hp hw => Nat.lt_of_lt_of_le (h.frq hp hw) hle⟩

/-- A plan's handles are those of the requests it adds. -/
theorem configureTermPlan_safe (idx : LogicalIndexReader) (reqs : List Range) (r : Resolved) :
    configureTermPlan idx false reqs r ≠ .error .outOfBounds ∧
      ∀ out, configureTermPlan idx false reqs r = .ok out →
        HandlesBelow out.2.length out.1 ∧ reqs.length ≤ out.2.length := by
  have hlen : ∀ n, slimFrqDocsLen r.entry n ≠ .error .outOfBounds := by
    intro n
    rw [slimFrqDocsLen]
    split <;> simp
  rw [configureTermPlan]
  simp only
  split
  · rename_i hwindowed
    refine ⟨by simp, fun out hout => ?_⟩
    cases hout
    rw [List.length_append, List.length_singleton]
    refine ⟨⟨fun _ => Nat.lt_succ_self _, fun _ hnot => ?_⟩, Nat.le_succ _⟩
    exact absurd (hwindowed.symm.trans hnot) Bool.true_eq_false_eq_False
  · rename_i hflat
    split
    · constructor
      · apply bind_ne_error (resolveWindow_ne_outOfBounds _ _ _ _ _)
        intro win _
        exact bind_ne_error (hlen _) fun n _ => by simp [pure, Except.pure]
      · intro out hout
        obtain ⟨win, -, hout⟩ := bind_eq_ok hout
        obtain ⟨n, -, hout⟩ := bind_eq_ok hout
        cases hout
        rw [List.length_append, List.length_singleton]
        exact ⟨⟨fun hw => absurd hw hflat, fun _ _ => Nat.lt_succ_self _⟩, Nat.le_succ _⟩
    · rename_i hinline
      refine ⟨by simp, fun out hout => ?_⟩
      cases hout
      exact ⟨⟨fun hw => absurd hw hflat, fun hp _ => absurd hp hinline⟩, Nat.le_refl _⟩

/-- **Planning** uses the handles of its own requests. -/
theorem planTerms_safe (env : ReadEnv) (idx : LogicalIndexReader) (reqs : List Range)
    (terms : List Bytes) :
    planTerms env idx false reqs terms ≠ .error .outOfBounds ∧
      ∀ plans reqs', planTerms env idx false reqs terms = .ok (some (plans, reqs')) →
        (∀ p ∈ plans, HandlesBelow reqs'.length p) ∧ reqs.length ≤ reqs'.length := by
  induction terms generalizing reqs with
  | nil =>
      refine ⟨by simp [planTerms], fun plans reqs' hplans => ?_⟩
      cases hplans
      exact ⟨fun p hp => (by cases hp), Nat.le_refl _⟩
  | cons term terms ih =>
      rw [planTerms]
      constructor
      · apply bind_ne_error (lookup_ne_outOfBounds env idx term)
        intro hit _
        cases hit with
        | none => simp [pure, Except.pure]
        | some r =>
            apply bind_ne_error (configureTermPlan_safe idx reqs r).1
            intro out _
            exact bind_ne_error (ih out.2).1 fun rest _ => by simp [pure, Except.pure]
      · intro plans reqs' hplans
        obtain ⟨hit, -, hplans⟩ := bind_eq_ok hplans
        cases hit with
        | none => cases hplans
        | some r =>
            obtain ⟨out, hout, hplans⟩ := bind_eq_ok hplans
            obtain ⟨rest, hrest, hplans⟩ := bind_eq_ok hplans
            obtain ⟨hown, hle⟩ := (configureTermPlan_safe idx reqs r).2 out hout
            cases rest with
            | none => cases hplans
            | some x =>
                cases hplans
                obtain ⟨hmore, hle'⟩ := (ih out.2).2 x.1 x.2 hrest
                exact ⟨List.forall_mem_cons.mpr ⟨hown.mono hle', hmore⟩, hle.trans hle'⟩

/-- Opening the preludes of a plan keeps its handles valid. -/
theorem openPreludes_blames {file : Bytes} (hsize : file.length < 2 ^ 64)
    (hf : fetch file gap reqs = .ok f) {plans : List TermPlan}
    (hplans : ∀ p ∈ plans, HandlesBelow reqs.length p) :
    Blames .outOfBounds (PreludeWraps file) (openPreludes f false plans) ∧
      ∀ opened, openPreludes f false plans = .ok opened →
        ∀ p ∈ opened, HandlesBelow reqs.length p := by
  constructor
  · apply Blames.mapM
    intro p hp
    rw [openPrelude]
    apply Blames.ite _ (fun _ => .ok p)
    intro hwindowed
    have hin := (hplans p hp).prelude hwindowed
    apply Blames.bind (.of_ne (get_ne_outOfBounds hf hin))
    intro bytes hget
    apply (fetched_blames hsize hf hin hget).bind
    intro prelude _
    exact Blames.ite (fun _ => .error (by simp)) fun _ => .ok _
  · intro opened hopened q hq
    obtain ⟨p, hp, hopen⟩ := exists_left_of_mem (mapM_eq_ok hopened) hq
    have hbelow := hplans p hp
    rw [openPrelude] at hopen
    split at hopen
    · obtain ⟨bytes, -, hopen⟩ := bind_eq_ok hopen
      obtain ⟨prelude, -, hopen⟩ := bind_eq_ok hopen
      split at hopen
      · cases hopen
      · cases hopen
        exact ⟨hbelow.prelude, hbelow.frq⟩
    · cases hopen
      exact hbelow

/-- The windows of a plan are decoded inside the batch. -/
theorem decodeChunks_ne_outOfBounds {file : Bytes} (z : Zstd) (hf : fetch file gap reqs = .ok f)
    {h : Nat} {ms : List WindowMeta} (hin : h + ms.length ≤ reqs.length) :
    decodeChunks z f false h ms ≠ .error .outOfBounds := by
  induction ms generalizing h with
  | nil => simp [decodeChunks]
  | cons m ms ih =>
      rw [List.length_cons] at hin
      have hchunk : decodeChunk z f false h m ≠ .error .outOfBounds := by
        apply bind_ne_error (get_ne_outOfBounds hf (by omega))
        intro dd _
        apply bind_ne_error (decodeWindowSlices_ne_outOfBounds _ _ _ _ _ _ _)
        exact fun window _ => by simp [pure, Except.pure, bind, Except.bind]
      rw [decodeChunks]
      apply bind_ne_error hchunk
      intro chunk _
      exact bind_ne_error (ih (by simp only [Bool.false_eq_true, if_false]; omega)) fun chunks _ =>
        by simp [pure, Except.pure]

theorem decodeWindowedDocids_ne_outOfBounds (z : Zstd) (idx : LogicalIndexReader) (p : TermPlan)
    (windows : List Nat) : decodeWindowedDocids z idx false p windows ≠ .error .outOfBounds := by
  have hplan : ∀ w, planWindow idx p false w ≠ .error .outOfBounds := by
    intro w
    apply bind_ne_error (windowedWindowRange_ne_outOfBounds _ _ _ _ _ _)
    intro range _
    exact bind_ne_error (window_ne_outOfBounds _ _) fun m _ => by simp [pure, Except.pure]
  have hone : ∀ w x, planWindow idx p false w = .ok x → x.2.length = 1 := by
    intro w x hx
    obtain ⟨range, -, hx⟩ := bind_eq_ok hx
    obtain ⟨m, -, hx⟩ := bind_eq_ok hx
    cases hx
    rfl
  apply bind_ne_error (DictBlock.mapM_ne_error fun w _ => hplan w)
  intro planned hplanned
  apply bind_ne_error (fetch_ne_outOfBounds _ _ _)
  intro g hg
  apply decodeChunks_ne_outOfBounds z hg
  have hlens : planned.map (fun x => x.2.length) = planned.map fun _ => 1 := by
    apply List.map_congr_left
    intro x hx
    obtain ⟨w, -, hw⟩ := exists_left_of_mem (mapM_eq_ok hplanned) hx
    exact hone w x hw
  rw [List.length_map, List.length_flatMap, hlens]
  simp

/-- The loop over the terms asks for handles of its batch. -/
theorem conjunctionLoop_ne_outOfBounds {file : Bytes} (z : Zstd) (idx : LogicalIndexReader)
    (hf : fetch file gap reqs = .ok f) {plans : List TermPlan}
    (hplans : ∀ p ∈ plans, HandlesBelow reqs.length p) {order : List Nat}
    (horder : ∀ ti ∈ order, ti < plans.length) (candidates : Option (List Nat))
    (srcs : List (List PosChunk)) :
    conjunctionLoop z idx f false plans order candidates srcs ≠ .error .outOfBounds := by
  have hflat : ∀ p ∈ plans, p.windowed = false →
      decodeFlatDocids z f false p ≠ .error .outOfBounds := by
    intro p hp hwindowed
    apply bind_ne_error
    · split
      · rename_i hpod
        exact get_ne_outOfBounds hf ((hplans p hp).frq hpod hwindowed)
      · rw [inlineDdRegion]
        split <;> simp
    · intro dd _
      simp only [Bool.false_eq_true, if_false, ok_bind]
      exact bind_ne_error (decodeDdRegion_ne_outOfBounds _ _ _ _) fun docids _ => by
        simp [pure, Except.pure]
  induction order generalizing candidates srcs with
  | nil => simp [conjunctionLoop]
  | cons ti order ih =>
      have hti := horder ti List.mem_cons_self
      have hp := List.getElem_mem hti
      rw [conjunctionLoop, List.getElem?_eq_getElem hti]
      simp only
      have hread : readTerm z idx f false candidates plans[ti] ≠ .error .outOfBounds := by
        unfold readTerm
        split
        · exact decodeWindowedDocids_ne_outOfBounds _ _ _ _
        · rename_i hwindowed
          exact bind_ne_error (hflat _ hp (Bool.eq_false_iff.mpr hwindowed)) fun chunk _ => by
            simp [pure, Except.pure]
      apply bind_ne_error hread
      intro chunks _
      split
      · simp [pure, Except.pure]
      · exact ih (fun t ht => horder t (List.mem_cons_of_mem _ ht)) _ _

/-- **A conjunction** blames a prelude alone. -/
theorem booleanAnd_blames (srt : DocSort) (env : ReadEnv) (hsize : idx.file.length < 2 ^ 64)
    (terms : List Bytes) :
    Blames .outOfBounds (PreludeWraps idx.file) (booleanAnd srt env idx terms) := by
  obtain ⟨hplan, hhandles⟩ := planTerms_safe env idx [] terms
  rw [booleanAnd]
  apply Blames.ite (fun _ => .ok [])
  intro _
  apply Blames.bind (.of_ne hplan)
  intro planned hplanned
  cases planned with
  | none => exact .ok []
  | some x =>
      obtain ⟨hbelow, -⟩ := hhandles x.1 x.2 hplanned
      apply Blames.bind (.of_ne (fetch_ne_outOfBounds _ _ _))
      intro f hf
      obtain ⟨hopen, hopened⟩ := openPreludes_blames hsize hf hbelow
      apply hopen.bind
      intro plans hplans
      apply Blames.bind _ (fun out _ => .ok out.2)
      apply Blames.of_ne
      apply conjunctionLoop_ne_outOfBounds env.zstd idx hf (hopened plans hplans)
      intro ti hti
      have hmem := (srt.perm _).mem_iff.mp hti
      rwa [List.mem_range, List.length_map] at hmem

/-! ## Scores -/

/-- The provider opens by checked sizes. -/
theorem open_ne_outOfBounds (idx : LogicalIndexReader) :
    SniiStatsProvider.open idx ≠ .error .outOfBounds := by
  rw [SniiStatsProvider.open]
  simp only
  split
  · simp
  · apply bind_ne_error (fetch_ne_outOfBounds _ _ _)
    intro f hf
    apply bind_ne_error (get_ne_outOfBounds hf Nat.zero_lt_one)
    intro framed _
    exact bind_ne_error (openNormsPod_ne_outOfBounds framed) fun reader _ => by
      simp [pure, Except.pure]

theorem scoreDecoded_ne_outOfBounds (p : SniiStatsProvider) (ctx : ScorerContext)
    (params : Bm25Params) (docids freqs : List Nat) :
    scoreDecoded p ctx params docids freqs ≠ .error .outOfBounds := by
  have hnorm : ∀ d, p.encodedNorm d ≠ .error .outOfBounds := by
    intro d
    rw [SniiStatsProvider.encodedNorm]
    cases p.norms with
    | none => simp
    | some reader =>
        simp only [NormsPod.NormsPodReader.tryEncodedNorm]
        split <;> simp
  induction docids generalizing freqs with
  | nil => simp [scoreDecoded]
  | cons d docids ih =>
      rw [scoreDecoded]
      apply bind_ne_error (hnorm d)
      intro norm _
      exact bind_ne_error (ih _) fun rest _ => by simp [pure, Except.pure]

theorem fetchPrelude_blames (hsize : idx.file.length < 2 ^ 64) (r : Resolved) :
    Blames .outOfBounds (PreludeWraps idx.file) (fetchPrelude idx r.entry r.frqBase) := by
  rw [fetchPrelude]
  apply Blames.bind (.of_ne (fetch_ne_outOfBounds _ _ _))
  intro f hf
  apply Blames.bind (.of_ne (get_ne_outOfBounds hf Nat.zero_lt_one))
  exact fun bytes hget => fetched_blames hsize hf Nat.zero_lt_one hget

/-- The cursor of a term goes out of bounds by a wrapped prelude only. -/
theorem buildCursorPostings_blames (z : Zstd) (hsize : idx.file.length < 2 ^ 64) (r : Resolved) :
    Blames .outOfBounds (PreludeWraps idx.file) (buildCursorPostings z idx r) := by
  rw [buildCursorPostings]
  apply Blames.ite
  · intro _
    apply (readWindowedPosting_blames z hsize r false true).bind
    exact fun posting _ => .ok _
  · intro _
    have hbytes : fetchSlimWindowBytes idx r.entry r.frqBase ≠ .error .outOfBounds := by
      rw [fetchSlimWindowBytes]
      split
      · simp
      · apply bind_ne_error (resolveWindow_ne_outOfBounds _ _ _ _ _)
        intro win _
        apply bind_ne_error (fetch_ne_outOfBounds _ _ _)
        exact fun f hf => get_ne_outOfBounds hf Nat.zero_lt_one
    apply Blames.of_ne
    apply bind_ne_error hbytes
    intro window _
    split
    · simp
    · apply bind_ne_error (decodeDdRegion_ne_outOfBounds _ _ _ _)
      intro docids _
      exact bind_ne_error (decodeFreqRegion_ne_outOfBounds _ _ _ _) fun freqs _ => by
        simp [pure, Except.pure]

/-- **The cursors of a query** blame a prelude alone. -/
theorem buildCursors_blames (env : ReadEnv) (ln : ℚ → ℚ) (params : Bm25Params)
    (hsize : idx.file.length < 2 ^ 64) (p : SniiStatsProvider) (terms : List Bytes) :
    Blames .outOfBounds (PreludeWraps idx.file) (buildCursors env ln params idx p terms) := by
  have hentry : ∀ r, Blames .outOfBounds (PreludeWraps idx.file)
      (entryCursor env ln params idx p r) := by
    intro r
    rw [entryCursor]
    apply (buildCursorPostings_blames env.zstd hsize r).bind
    intro posting _
    apply Blames.bind (.of_ne (scoreDecoded_ne_outOfBounds _ _ _ _ _))
    exact fun postings _ => .ok _
  induction terms with
  | nil => exact .ok []
  | cons term terms ih =>
      have hone : Blames .outOfBounds (PreludeWraps idx.file)
          (buildCursor env ln params idx p term) := by
        rw [buildCursor]
        apply Blames.bind (.of_ne (lookup_ne_outOfBounds env idx term))
        intro hit _
        cases hit with
        | none => exact .ok none
        | some r => exact (hentry r).bind fun cursor _ => .ok _
      rw [buildCursors]
      apply hone.bind
      intro c _
      exact ih.bind fun rest _ => .ok _

/-! ## Every query -/

/-- What the queries over an index access outside the buffers has a cause. -/
structure StaysInside (env : ReadEnv) (idx : LogicalIndexReader) (cause : Prop) : Prop where
  lookup : ∀ t, lookup env idx t ≠ .error .outOfBounds
  prefixTerms : ∀ pre, prefixTerms env idx pre ≠ .error .outOfBounds
  term : ∀ t, Blames .outOfBounds cause (termQuery env idx t)
  disjunction : ∀ terms, Blames .outOfBounds cause (booleanOr env idx terms)
  conjunction : ∀ srt terms, Blames .outOfBounds cause (booleanAnd srt env idx terms)
  expansion : ∀ pre accepts,
    Blames .outOfBounds cause (emitExpandedDocidUnion env idx pre accepts)
  wildcard : ∀ pattern, Blames .outOfBounds cause (wildcardQuery env idx pattern)
  regexp : ∀ lib pattern, Blames .outOfBounds cause (regexpQuery lib env idx pattern)
  provider : SniiStatsProvider.open idx ≠ .error .outOfBounds
  bounds : ∀ r : Resolved, Blames .outOfBounds cause (fetchPrelude idx r.entry r.frqBase)
  exhaustive : ∀ ln params p terms k,
    Blames .outOfBounds cause (scoringQueryExhaustive env ln params idx p terms k)
  wand : ∀ srt ln params p terms k out,
    scoringQueryWand srt env ln params idx p terms k = some out → Blames .outOfBounds cause out

/-- **Every query over any bytes** goes out of bounds by a wrapped prelude only. -/
theorem staysInside (env : ReadEnv) (hsize : idx.file.length < 2 ^ 64) :
    StaysInside env idx (PreludeWraps idx.file) := by
  constructor
  case lookup => exact lookup_ne_outOfBounds env idx
  case prefixTerms => exact prefixTerms_ne_outOfBounds env idx
  case term => exact termQuery_blames env hsize
  case disjunction => exact booleanOr_blames env hsize
  case conjunction => exact fun srt => booleanAnd_blames srt env hsize
  case expansion => exact emitExpandedDocidUnion_blames env hsize
  case wildcard => exact fun pattern => emitExpandedDocidUnion_blames env hsize _ _
  case regexp =>
    intro lib pattern
    rw [regexpQuery]
    cases lib.compile pattern with
    | error what => exact .error (by simp)
    | ok re => exact emitExpandedDocidUnion_blames env hsize _ _
  case provider => exact open_ne_outOfBounds idx
  case bounds => exact fetchPrelude_blames hsize
  case exhaustive =>
    intro ln params p terms k
    rw [scoringQueryExhaustive]
    apply Blames.ite (fun _ => .ok [])
    intro _
    exact (buildCursors_blames env ln params hsize p terms).bind fun cursors _ => .ok _
  case wand =>
    intro srt ln params p terms k out hout
    have hcursors := buildCursors_blames env ln params hsize p terms
    rw [scoringQueryWand] at hout
    split at hout
    · cases hout
      exact .ok []
    · cases hbuilt : buildCursors env ln params idx p terms with
      | error s =>
          rw [hbuilt] at hout hcursors
          cases hout
          exact ⟨fun heq => hcursors.imp (congrArg Except.error (Except.error.inj heq))⟩
      | ok cursors =>
          rw [hbuilt] at hout
          obtain ⟨hits, -, rfl⟩ := Option.map_eq_some_iff.mp hout
          exact .ok hits

/-- **Reading arbitrary bytes.**  Of a file of any content, opening the container and its
indexes accesses a byte outside a buffer only where a stretch of the file declares sums
that wrap as a meta region, and the docid and scored queries over an opened index only
where one does as a window prelude.  A filter that is kept in memory has a whole block
for every hash. -/
theorem reading_inside {file : Bytes} (hsize : file.length < 2 ^ 64) :
    Blames .outOfBounds (RegionWraps file) (SniiSegmentReader.open file) ∧
      ∀ s, SniiSegmentReader.open file = .ok s → ∀ env indexId suffix,
        Blames .outOfBounds (RegionWraps file) (s.openIndex env indexId suffix) ∧
          ∀ idx, s.openIndex env indexId suffix = .ok idx →
            (∀ filter, idx.bsbf = some filter → BlocksInside filter) ∧
              StaysInside env idx (PreludeWraps file) := by
  refine ⟨(segment_blames hsize).1, fun s hs env indexId suffix => ?_⟩
  obtain ⟨hopen, hopened⟩ := @openIndex_blames env file hsize s hs indexId suffix
  refine ⟨hopen, fun idx hidx => ?_⟩
  obtain ⟨rfl, hfilter⟩ := hopened idx hidx
  exact ⟨hfilter, staysInside env hsize⟩

theorem reading_inside_scoredCall : ∃ s idx,
    SniiSegmentReader.open (containerOf storeEnv [scoredCall]) = .ok s ∧
      s.openIndex storeReadEnv 0 [] = .ok idx ∧
      (∀ filter, idx.bsbf = some filter → BlocksInside filter) ∧
      StaysInside storeReadEnv idx (PreludeWraps (containerOf storeEnv [scoredCall])) := by
  obtain ⟨idx, ⟨s, hs, hidx⟩, -⟩ := written_scoredCall.serves capsOk_scoredCall
  exact ⟨s, idx, hs, hidx, ((reading_inside written_scoredCall.session.size).2 s hs
    storeReadEnv 0 []).2 idx hidx⟩

end Snii.Query.QuerySafety
