import Snii.Query.PostingPaths
import Snii.Reader.MovedIndex

/-!
# Posting reads of an index at two places

Two readers over one posting region read every entry whose spans are in the region
alike: its documents in a batch with others, its frequencies, its windows one by one,
and its positions.  No path looks at the offset of the region, but through the ranges
that it asks for.
-/

namespace Snii.Query.MovedPostings

open Snii.Lib.ByteReader Snii.Lib.Agreement Snii.Lib.Aligned Snii.Common
open Snii.Io.BatchRangeFetcher Snii.Reader
open Snii.Query.DocidPosting Snii.Query.CursorPostings Snii.Query.Conjunction
open Snii.Query.PhraseQuery Snii.Query.PostingPaths
open Snii.Query.ScoringQuery (DocSort)
open Snii.Encoding.Compression Snii.Format.Dict
open Snii.Format.DictBlock (Resolved)
open Snii.Format.FrqPrelude (WindowMeta FrqPreludeReader)

variable {z : Zstd} {idx idx' : LogicalIndexReader} {region : Bytes} {r : Resolved}
  {f f' : Fetched}

/-! ## Documents in a batch -/

theorem planPostings_members {i : Nat} {rs : List Resolved} {plans out : Plans}
    (h : planPostings z i rs plans = .ok out) :
    ∀ x ∈ out.flat ++ out.window, x ∈ plans.flat ++ plans.window ∨ x.2 ∈ rs := by
  induction rs generalizing i plans with
  | nil =>
      cases h
      exact fun x hx => .inl hx
  | cons r rs ih =>
      have hlater : ∀ {plans' : Plans} {x : Nat × Resolved},
          planPostings z (i + 1) rs plans' = .ok out → x ∈ out.flat ++ out.window →
          (x ∈ plans'.flat ++ plans'.window → x ∈ plans.flat ++ plans.window ∨ x = (i, r)) →
          x ∈ plans.flat ++ plans.window ∨ x.2 ∈ r :: rs := by
        intro plans' x hrun hx hnew
        cases ih hrun x hx with
        | inr hrest => exact .inr (List.mem_cons_of_mem _ hrest)
        | inl hin =>
            cases hnew hin with
            | inl hold => exact .inl hold
            | inr heq =>
                rw [heq]
                exact .inr List.mem_cons_self
      intro x hx
      rw [planPostings] at h
      split at h
      · obtain ⟨docs, -, h⟩ := bind_eq_ok h
        exact hlater h hx fun hin => .inl hin
      · split at h
        · obtain ⟨_, -, h⟩ := bind_eq_ok h
          apply hlater h hx
          intro hin
          simp only [List.mem_append, List.mem_singleton] at hin ⊢
          tauto
        · apply hlater h hx
          intro hin
          simp only [List.mem_append, List.mem_singleton] at hin ⊢
          tauto

theorem openWindowPreludes_same (hf : SameFetched f f') (h : Nat) (plans : List (Nat × Resolved)) :
    openWindowPreludes f h plans = openWindowPreludes f' h plans := by
  induction plans generalizing h with
  | nil => rfl
  | cons x plans ih => rw [openWindowPreludes, openWindowPreludes, hf h, ih]

theorem decodeFlatPlans_same (hf : SameFetched f f') (h : Nat) (plans : List (Nat × Resolved))
    (out : List (List Nat)) :
    decodeFlatPlans z f h plans out = decodeFlatPlans z f' h plans out := by
  induction plans generalizing h out with
  | nil => rfl
  | cons x plans ih => simp only [decodeFlatPlans, hf h, ih]

theorem decodeWindowPlan_same (hf : SameFetched f f') (h : Nat) (ms : List WindowMeta) :
    decodeWindowPlan z f h ms = decodeWindowPlan z f' h ms := by
  induction ms generalizing h with
  | nil => rfl
  | cons m ms ih => rw [decodeWindowPlan, decodeWindowPlan, hf h, ih]

theorem decodeWindowPlans_same (hf : SameFetched f f') (h : Nat)
    (plans : List (Nat × List WindowMeta)) (out : List (List Nat)) :
    decodeWindowPlans z f h plans out = decodeWindowPlans z f' h plans out := by
  induction plans generalizing h out with
  | nil => rfl
  | cons x plans ih => simp only [decodeWindowPlans, decodeWindowPlan_same hf, ih]

theorem planFlatDocs_moved (h : SameRegion idx idx' region) (r : Resolved) :
    SameOutcome (SameBytes idx.file idx'.file) (planFlatDocs idx r) (planFlatDocs idx' r) := by
  apply (resolveWindow_moved h _ _ _ _).bind
  intro p p' hp
  obtain ⟨hlen, hsame⟩ := hp
  simp only
  rw [← hlen]
  have hfetch := @SameOutcome.self _ _ (slimDocsFetchLen r.entry p.2) (fun n => n ≤ p.2)
  have hle : ∀ n, slimDocsFetchLen r.entry p.2 = .ok n → n ≤ p.2 := by
    intro n hn
    rw [slimDocsFetchLen] at hn
    split at hn
    · cases hn
    · cases hn
      split <;> omega
  apply (hfetch hle).bind
  intro n n' hn
  obtain ⟨heq, hn⟩ := hn
  subst heq
  exact .ok (hsame n hn)

theorem planWindowDocs_moved (h : SameRegion idx idx' region) (hr : SpansIn region.length r)
    (prelude : FrqPreludeReader) :
    SameOutcome (List.Forall₂ fun x x' => x.1 = x'.1 ∧ SameBytes idx.file idx'.file x.2 x'.2)
      (planWindowDocs idx r prelude) (planWindowDocs idx' r prelude) := by
  apply SameOutcome.mapM
  rw [List.forall₂_same]
  intro w _
  apply (windowedWindowRange_moved h hr prelude w false false).bind
  intro a a' ha
  apply (SameOutcome.refl _).bind
  intro m m' hm
  exact .ok ⟨hm, ha.dd⟩

/-- **A batch of postings** is read alike. -/
theorem readDocidPostingsBatched_moved (h : SameRegion idx idx' region) {rs : List Resolved}
    (hrs : ∀ r ∈ rs, SpansIn region.length r) :
    readDocidPostingsBatched z idx rs = readDocidPostingsBatched z idx' rs := by
  have hmembers : ∀ plans, planPostings z 0 rs
      { docids := List.replicate rs.length [] } = .ok plans →
        ∀ x ∈ plans.flat ++ plans.window, SpansIn region.length x.2 := by
    intro plans hplans x hx
    cases planPostings_members hplans x hx with
    | inl hin => cases hin
    | inr hin => exact hrs _ hin
  rw [readDocidPostingsBatched, readDocidPostingsBatched]
  apply (SameOutcome.self hmembers).bind_eq
  intro plans _ hplans
  obtain ⟨heq, hspans⟩ := hplans
  subst heq
  have hwindow : ∀ x ∈ plans.window, SpansIn region.length x.2 := fun x hx =>
    hspans x (List.mem_append_right _ hx)
  have hpreludes : List.Forall₂ (SameBytes idx.file idx'.file)
      (plans.window.map fun x => preludeRange idx x.2)
      (plans.window.map fun x => preludeRange idx' x.2) := by
    rw [List.forall₂_map_left_iff, List.forall₂_map_right_iff, List.forall₂_same]
    intro x hx
    have hx := hwindow x hx
    have hfrq := hx.frq
    have hprelude := hx.prelude
    exact h.sameBytes (by omega) (preludeAbs_eq h.here hx) (preludeAbs_eq h.there hx)
  apply (fetch_same h.here.size h.there.size hpreludes 0).bind_eq
  intro f f' hf
  rw [openWindowPreludes_same hf]
  apply (SameOutcome.refl _).bind_eq
  intro preludes _ hpreludes
  subst hpreludes
  have hflat : List.Forall₂ (fun x y : Nat × Resolved => SameOutcome (SameBytes idx.file idx'.file)
      (planFlatDocs idx x.2) (planFlatDocs idx' y.2)) plans.flat plans.flat := by
    rw [List.forall₂_same]
    exact fun x _ => planFlatDocs_moved h x.2
  apply (SameOutcome.mapM hflat).bind_eq
  intro flat flat' hflat
  have hwindows : List.Forall₂ (fun x y : (Nat × Resolved) × FrqPreludeReader => SameOutcome
      (List.Forall₂ fun x x' : WindowMeta × Range =>
        x.1 = x'.1 ∧ SameBytes idx.file idx'.file x.2 x'.2)
      (planWindowDocs idx x.1.2 x.2) (planWindowDocs idx' y.1.2 y.2))
      (plans.window.zip preludes) (plans.window.zip preludes) := by
    rw [List.forall₂_same]
    intro x hx
    exact planWindowDocs_moved h (hwindow x.1 (List.of_mem_zip hx).1) x.2
  apply (SameOutcome.mapM hwindows).bind_eq
  intro windows windows' hwindows
  have hranges : List.Forall₂ (SameBytes idx.file idx'.file)
      (windows.flatten.map Prod.snd) (windows'.flatten.map Prod.snd) := by
    rw [List.forall₂_map_left_iff, List.forall₂_map_right_iff]
    exact (List.rel_flatten hwindows).imp fun _ _ hx => hx.2
  have hrows : (windows.map fun ws => ws.map Prod.fst) =
      windows'.map fun ws => ws.map Prod.fst := by
    refine map_eq_of_forall₂ (fun ws ws' hws => ?_) hwindows
    exact map_eq_of_forall₂ (fun _ _ hx => hx.1) hws
  apply (fetch_same h.here.size h.there.size (List.rel_append hflat hranges) 0).bind_eq
  intro g g' hg
  rw [decodeFlatPlans_same hg, hrows, hflat.length_eq]
  apply (SameOutcome.refl _).bind_eq
  intro out _ hout
  subst hout
  exact decodeWindowPlans_same hg _ _ _

theorem readDocidPosting_moved (h : SameRegion idx idx' region) (hr : SpansIn region.length r) :
    readDocidPosting z idx r = readDocidPosting z idx' r := by
  rw [readDocidPosting, readDocidPosting, readDocidPostingsBatched_moved h
    (List.forall_mem_singleton.mpr hr)]

/-! ## Documents with their frequencies -/

theorem fetchSlimWindowBytes_moved (h : SameRegion idx idx' region) (r : Resolved) :
    fetchSlimWindowBytes idx r.entry r.frqBase = fetchSlimWindowBytes idx' r.entry r.frqBase := by
  rw [fetchSlimWindowBytes, fetchSlimWindowBytes]
  apply SameOutcome.eq
  apply SameOutcome.ite (fun _ => .refl _)
  intro _
  apply (resolveWindow_moved h _ _ _ _).bind
  intro p p' hp
  obtain ⟨hlen, hsame⟩ := hp
  have hrange := hsame p.2 (Nat.le_refl _)
  rw [hlen] at hrange
  simp only
  rw [hlen]
  apply (fetch_same h.here.size h.there.size (.cons hrange .nil) 0).bind
  intro f f' hf
  rw [hf 0]
  exact .refl _

/-- **Documents and frequencies** of a posting are read alike. -/
theorem buildCursorPostings_moved (h : SameRegion idx idx' region)
    (hr : SpansIn region.length r) :
    buildCursorPostings z idx r = buildCursorPostings z idx' r := by
  rw [buildCursorPostings, buildCursorPostings, readWindowedPosting_moved z h hr, decodeSlim,
    decodeSlim, fetchSlimWindowBytes_moved h]

/-- **One window** is read alike. -/
theorem materializeWindowPostings_moved (h : SameRegion idx idx' region)
    (hr : SpansIn region.length r) (prelude : FrqPreludeReader) (w : Nat) :
    materializeWindowPostings z idx r prelude w =
      materializeWindowPostings z idx' r prelude w := by
  rw [materializeWindowPostings, materializeWindowPostings]
  apply (SameOutcome.refl _).bind_eq
  intro m _ hm
  subst hm
  apply (windowedWindowRange_moved h hr prelude w false true).bind_eq
  intro a a' ha
  apply (fetch_same h.here.size h.there.size (.cons ha.dd (.cons ha.freq .nil)) _).bind_eq
  intro f f' hf
  rw [hf 0, hf 1]

/-! ## Documents with their positions -/

/-- A planned term, with the requests up to it. -/
structure MovedPlans (file file' : Bytes) (len : Nat) (x x' : List TermPlan × List Range) :
    Prop where
  plans : x.1 = x'.1
  spans : ∀ p ∈ x.1, SpansIn len p.posting
  reqs : List.Forall₂ (SameBytes file file') x.2 x'.2

theorem configureTermPlan_moved (h : SameRegion idx idx' region) (hr : SpansIn region.length r)
    (needPositions : Bool) {reqs reqs' : List Range}
    (hreqs : List.Forall₂ (SameBytes idx.file idx'.file) reqs reqs') :
    SameOutcome (fun x x' => x.1 = x'.1 ∧ x.1.posting = r ∧
        List.Forall₂ (SameBytes idx.file idx'.file) x.2 x'.2)
      (configureTermPlan idx needPositions reqs r)
      (configureTermPlan idx' needPositions reqs' r) := by
  have hfrq := hr.frq
  have hprelude := hr.prelude
  have hlen := hreqs.length_eq
  rw [configureTermPlan, configureTermPlan]
  apply SameOutcome.ite
  · intro _
    have hrange : SameBytes idx.file idx'.file (preludeRange idx r) (preludeRange idx' r) :=
      h.sameBytes (by omega) (preludeAbs_eq h.here hr) (preludeAbs_eq h.there hr)
    exact .ok ⟨by rw [hlen], rfl, List.rel_append hreqs (.cons hrange .nil)⟩
  · intro _
    apply SameOutcome.ite _ (fun _ => .ok ⟨rfl, rfl, hreqs⟩)
    intro _
    apply (resolveWindow_moved h _ _ _ _).bind
    intro p p' hp
    obtain ⟨hplen, hsame⟩ := hp
    simp only
    rw [← hplen]
    have hle : ∀ n, slimFrqDocsLen r.entry p.2 = .ok n → n ≤ p.2 := by
      intro n hn
      rw [slimFrqDocsLen] at hn
      split at hn
      · cases hn
      · cases hn
        split <;> omega
    apply (SameOutcome.self hle).bind
    intro n n' hn
    obtain ⟨heq, hn⟩ := hn
    subst heq
    have hfrqReqs : List.Forall₂ (SameBytes idx.file idx'.file) (reqs ++ [⟨p.1, n⟩])
        (reqs' ++ [⟨p'.1, n⟩]) := List.rel_append hreqs (.cons (hsame n hn) .nil)
    have hcount := hfrqReqs.length_eq
    apply SameOutcome.ite
    · intro _
      apply (resolveWindow_moved h _ _ _ _).bind
      intro q q' hq
      obtain ⟨hqlen, hqsame⟩ := hq
      have hprx := hqsame q.2 (Nat.le_refl _)
      rw [hqlen] at hprx
      rw [hcount, hlen, hqlen]
      exact .ok ⟨rfl, rfl, List.rel_append hfrqReqs (.cons hprx .nil)⟩
    · intro _
      exact .ok ⟨by rw [hlen], rfl, hfrqReqs⟩

theorem planResolvedTerms_moved (h : SameRegion idx idx' region) {rs : List Resolved}
    (hrs : ∀ r ∈ rs, SpansIn region.length r) (needPositions : Bool) {reqs reqs' : List Range}
    (hreqs : List.Forall₂ (SameBytes idx.file idx'.file) reqs reqs') :
    SameOutcome (MovedPlans idx.file idx'.file region.length)
      (planResolvedTerms idx needPositions reqs rs)
      (planResolvedTerms idx' needPositions reqs' rs) := by
  induction rs generalizing reqs reqs' with
  | nil => exact .ok ⟨rfl, fun p hp => (by cases hp), hreqs⟩
  | cons r rs ih =>
      have hr := hrs r List.mem_cons_self
      rw [planResolvedTerms, planResolvedTerms]
      apply (configureTermPlan_moved h hr needPositions hreqs).bind
      intro x x' hx
      obtain ⟨hplan, hposting, hmore⟩ := hx
      apply (ih (fun q hq => hrs q (List.mem_cons_of_mem _ hq)) hmore).bind
      intro y y' hy
      apply SameOutcome.ok
      refine ⟨?_, ?_, hy.reqs⟩
      · show x.1 :: y.1 = x'.1 :: y'.1
        rw [hplan, hy.plans]
      · intro p hp
        cases List.mem_cons.mp hp with
        | inl heq =>
            rw [heq, hposting]
            exact hr
        | inr hrest => exact hy.spans p hrest

theorem openPrelude_posting {needPositions : Bool} {p q : TermPlan}
    (h : openPrelude f needPositions p = .ok q) : q.posting = p.posting := by
  rw [openPrelude] at h
  split at h
  · obtain ⟨bytes, -, h⟩ := bind_eq_ok h
    obtain ⟨prelude, -, h⟩ := bind_eq_ok h
    split at h
    · cases h
    · cases h
      rfl
  · cases h
    rfl

theorem openPreludes_same (hf : SameFetched f f') (needPositions : Bool) (plans : List TermPlan) :
    openPreludes f needPositions plans = openPreludes f' needPositions plans := by
  rw [openPreludes, openPreludes]
  congr 1
  funext p
  rw [openPrelude, openPrelude, hf p.preludeHandle]

theorem openPreludes_spans {len : Nat} {needPositions : Bool} {plans opened : List TermPlan}
    (hplans : ∀ p ∈ plans, SpansIn len p.posting)
    (h : openPreludes f needPositions plans = .ok opened) :
    ∀ q ∈ opened, SpansIn len q.posting := by
  intro q hq
  obtain ⟨p, hp, hopen⟩ := exists_left_of_mem (mapM_eq_ok h) hq
  rw [openPrelude_posting hopen]
  exact hplans p hp

theorem planWindow_moved (h : SameRegion idx idx' region) {p : TermPlan}
    (hp : SpansIn region.length p.posting) (needPositions : Bool) (w : Nat) :
    SameOutcome (fun x x' => x.1 = x'.1 ∧ List.Forall₂ (SameBytes idx.file idx'.file) x.2 x'.2)
      (planWindow idx p needPositions w) (planWindow idx' p needPositions w) := by
  apply (windowedWindowRange_moved h hp p.prelude w needPositions false).bind
  intro a a' ha
  apply (SameOutcome.refl _).bind
  intro m m' hm
  apply SameOutcome.ok
  refine ⟨hm, .cons ha.dd ?_⟩
  cases needPositions with
  | false => exact .nil
  | true => exact .cons ha.prx .nil

theorem decodeChunks_same (hf : SameFetched f f') (needPositions : Bool) (h : Nat)
    (ms : List WindowMeta) :
    decodeChunks z f needPositions h ms = decodeChunks z f' needPositions h ms := by
  induction ms generalizing h with
  | nil => rfl
  | cons m ms ih =>
      rw [decodeChunks, decodeChunks, ih, decodeChunk, decodeChunk, hf h, hf (h + 1)]

theorem decodeWindowedDocids_moved (h : SameRegion idx idx' region) {p : TermPlan}
    (hp : SpansIn region.length p.posting) (needPositions : Bool) (windows : List Nat) :
    decodeWindowedDocids z idx needPositions p windows =
      decodeWindowedDocids z idx' needPositions p windows := by
  have hplanned : List.Forall₂ (fun w w' => SameOutcome
      (fun x x' => x.1 = x'.1 ∧ List.Forall₂ (SameBytes idx.file idx'.file) x.2 x'.2)
      (planWindow idx p needPositions w) (planWindow idx' p needPositions w')) windows windows := by
    rw [List.forall₂_same]
    exact fun w _ => planWindow_moved h hp needPositions w
  rw [decodeWindowedDocids, decodeWindowedDocids]
  apply (SameOutcome.mapM hplanned).bind_eq
  intro planned planned' hplanned
  have hranges : List.Forall₂ (SameBytes idx.file idx'.file) (planned.flatMap Prod.snd)
      (planned'.flatMap Prod.snd) := by
    rw [List.flatMap_def, List.flatMap_def]
    apply List.rel_flatten
    rw [List.forall₂_map_left_iff, List.forall₂_map_right_iff]
    exact hplanned.imp fun _ _ hx => hx.2
  apply (fetch_same h.here.size h.there.size hranges _).bind_eq
  intro g g' hg
  rw [map_eq_of_forall₂ (fun _ _ hx => hx.1) hplanned]
  exact decodeChunks_same hg needPositions 0 _

/-- **A term** is read alike, for whatever candidates. -/
theorem readTerm_moved (h : SameRegion idx idx' region) (hf : SameFetched f f') {p : TermPlan}
    (hp : SpansIn region.length p.posting) (needPositions : Bool)
    (candidates : Option (List Nat)) :
    readTerm z idx f needPositions candidates p =
      readTerm z idx' f' needPositions candidates p := by
  unfold readTerm decodeFlatDocids
  rw [decodeWindowedDocids_moved h hp, hf p.frqHandle, hf p.prxHandle]

theorem conjunctionLoop_moved (h : SameRegion idx idx' region) (hf : SameFetched f f')
    {plans : List TermPlan} (hplans : ∀ p ∈ plans, SpansIn region.length p.posting)
    (needPositions : Bool) (order : List Nat) (candidates : Option (List Nat))
    (srcs : List (List PosChunk)) :
    conjunctionLoop z idx f needPositions plans order candidates srcs =
      conjunctionLoop z idx' f' needPositions plans order candidates srcs := by
  induction order generalizing candidates srcs with
  | nil => rfl
  | cons ti order ih =>
      rw [conjunctionLoop, conjunctionLoop]
      cases hget : plans[ti]? with
      | none => rfl
      | some p =>
          have hp := hplans p (List.mem_of_getElem? hget)
          simp only [readTerm_moved h hf hp, ih]

/-- **The first round and the conjunction** over terms are the same. -/
theorem buildPhraseExecutionState_moved (srt : DocSort) (h : SameRegion idx idx' region)
    {plans : List TermPlan} (hplans : ∀ p ∈ plans, SpansIn region.length p.posting)
    {reqs reqs' : List Range} (hreqs : List.Forall₂ (SameBytes idx.file idx'.file) reqs reqs') :
    buildPhraseExecutionState srt z idx reqs plans =
      buildPhraseExecutionState srt z idx' reqs' plans := by
  rw [buildPhraseExecutionState, buildPhraseExecutionState]
  apply (fetch_same h.here.size h.there.size hreqs 0).bind_eq
  intro f f' hf
  rw [openPreludes_same hf]
  apply (SameOutcome.self fun opened hopened => openPreludes_spans hplans hopened).bind_eq
  intro opened _ hopened
  obtain ⟨heq, hspans⟩ := hopened
  subst heq
  exact conjunctionLoop_moved h hf hspans true _ _ _

/-- **Documents and positions** of a posting are read alike. -/
theorem termPositions_moved (srt : DocSort) (h : SameRegion idx idx' region)
    (hr : SpansIn region.length r) :
    termPositions srt z idx r = termPositions srt z idx' r := by
  rw [termPositions, termPositions]
  apply (planResolvedTerms_moved h (List.forall_mem_singleton.mpr hr) true .nil).bind_eq
  intro x x' hx
  simp only
  rw [← hx.plans, buildPhraseExecutionState_moved srt h hx.spans hx.reqs]

end Snii.Query.MovedPostings
