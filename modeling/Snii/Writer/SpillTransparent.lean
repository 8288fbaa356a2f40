import Snii.Writer.MergeRuns
import Snii.Writer.SlotPoolRuns
import Snii.Writer.SpimiRun

/-!
# Spilling is transparent

A drain returns, for every term, the groupings of its token segments appended in
order (`forEachTermSorted_lays`, `finalizeSorted_lays`), where the segments are
what the spills cut the feed into.  When a term's docids arrive in order this is
the grouping of all its tokens, so no choice of spill points can be seen in the
output.
-/

namespace Snii.Writer.SpimiTermBuffer

open Snii.Lib.ByteReader Snii.Lib.Grouping Snii.Common Snii.Encoding.Varint
  Snii.Writer.CompactPostingPool Snii.Writer.SpillRunCodec

/-- The groupings of a term's segments, appended in order. -/
def segmentGroups (segs : List (List Token)) (id : Nat) : List (Nat × List Nat) :=
  catAll (segs.map fun seg => group (toksOf seg id))

/-- What each run holds of a term. -/
def contribOf (segs : List (List Token)) (i id : Nat) : List (Nat × List Nat) :=
  group (toksOf (segs.getD i []) id)

theorem group_eq_nil {l : List Tok} : group l = [] ↔ l = [] := by
  constructor
  · intro h
    have hkeys : keysOf l = [] := by simpa [group] using h
    by_contra hne
    obtain ⟨k, hk⟩ := List.exists_mem_of_ne_nil _ hne
    have : k.1 ∈ keysOf l := mem_keysOf.mpr (List.mem_map_of_mem hk)
    rw [hkeys] at this
    simp at this
  · rintro rfl
    rfl

/-- What the segments contribute, appended, is the segmented grouping. -/
theorem contribGroups_contribOf (segs : List (List Token)) (id : Nat) :
    contribGroups (contribOf segs) segs.length id = segmentGroups segs id := by
  have hmap : (List.range segs.length).map (fun i => contribOf segs i id) =
      segs.map fun seg => group (toksOf seg id) := by
    conv_rhs => rw [← map_getD_range segs [], List.map_map]
    rfl
  rw [contribGroups, segmentGroups, catAll, ← hmap, List.foldl_map]

/-- The part of the dictionary order that a segment touches. -/
theorem dictIds_filter {vocab : List Bytes} (hvocab : vocab.Nodup) {toks seg : List Token}
    (hsub : ∀ t ∈ seg, t ∈ toks) (hlt : ∀ t ∈ toks, t.termId < vocab.length) :
    (dictIds vocab toks).filter (fun id => group (toksOf seg id) ≠ []) = dictIds vocab seg := by
  have hmem : ∀ id, id ∈ (dictIds vocab toks).filter (fun id => group (toksOf seg id) ≠ []) ↔
      id ∈ dictIds vocab seg := by
    intro id
    rw [List.mem_filter, mem_dictIds, mem_dictIds]
    simp only [ne_eq, group_eq_nil, toksOf_eq_nil, not_not, decide_eq_true_eq]
    constructor
    · exact fun h => h.2
    · intro h
      obtain ⟨t, ht, rfl⟩ := List.mem_map.mp h
      exact ⟨List.mem_map_of_mem (hsub t ht), h⟩
  refine eq_of_dictLe_sorted hvocab ?_ (List.pairwise_insertionSort _ _) ?_ ?_
  · exact List.Pairwise.filter _ (List.pairwise_insertionSort _ _)
  · exact (List.perm_ext_iff_of_nodup ((nodup_dictIds vocab toks).filter _)
      (nodup_dictIds vocab seg)).mpr hmem
  · intro id hid
    obtain ⟨t, ht, rfl⟩ := List.mem_map.mp (mem_dictIds.mp (List.mem_filter.mp hid).1)
    exact hlt t ht

/-- A spilled run holds the records the merge expects of it. -/
theorem runFile_eq_pending {vocab : List Bytes} (hvocab : vocab.Nodup) (hasPositions : Bool)
    {segs : List (List Token)} (hlt : ∀ t ∈ segs.flatten, t.termId < vocab.length) :
    segs.map (runFile vocab hasPositions) = (List.range segs.length).map fun i =>
      encodeRecs hasPositions (pending (contribOf segs) (dictIds vocab segs.flatten) i) := by
  conv_lhs => rw [← map_getD_range segs [], List.map_map]
  refine List.map_congr_left fun i hi => ?_
  have hi : i < segs.length := List.mem_range.mp hi
  have hsub : ∀ t ∈ segs.getD i [], t ∈ segs.flatten := by
    intro t ht
    rw [List.getD_eq_getElem?_getD, List.getElem?_eq_getElem hi, Option.getD_some] at ht
    exact List.mem_flatten.mpr ⟨_, List.getElem_mem hi, ht⟩
  have hpending : pending (contribOf segs) (dictIds vocab segs.flatten) i =
      (dictIds vocab (segs.getD i [])).map fun id => (id, contribOf segs i id) :=
    congrArg (List.map _) (dictIds_filter hvocab hsub hlt)
  rw [hpending, encodeRecs, List.flatMap_map]
  rfl

/-! ## What a segment contributes -/

/-- A term's tokens, segment by segment. -/
theorem toksOf_flatten (segs : List (List Token)) (id : Nat) :
    toksOf segs.flatten id = segs.flatMap fun seg => toksOf seg id := by
  induction segs with
  | nil => rfl
  | cons seg segs ih => rw [List.flatten_cons, toksOf_append, ih, List.flatMap_cons]

/-- What the segments must satisfy to be merged. -/
structure SegsOk (vocab : List Bytes) (segs : List (List Token)) : Prop where
  inVocab : ∀ t ∈ segs.flatten, t.termId < vocab.length
  valid : ∀ t ∈ segs.flatten, t.Valid
  count : ∀ seg ∈ segs, ∀ id, (toksOf seg id).length < 2 ^ 32
  total : ∀ id, (toksOf segs.flatten id).length < 2 ^ 64

/-- A segment's tokens are among the feed's. -/
private theorem toksOf_getD_sublist {segs : List (List Token)} {i : Nat} (hi : i < segs.length)
    (id : Nat) : (toksOf (segs.getD i []) id).Sublist (toksOf segs.flatten id) := by
  rw [List.getD_eq_getElem?_getD, List.getElem?_eq_getElem hi, Option.getD_some]
  have hsub : segs[i].Sublist segs.flatten := List.sublist_flatten_of_mem (List.getElem_mem hi)
  exact (hsub.filter _).map _

private theorem contribOf_fits {vocab : List Bytes} {segs : List (List Token)}
    (h : SegsOk vocab segs) {id i : Nat} (hid : id ∈ dictIds vocab segs.flatten)
    (hi : i < segs.length) : Rec.Fits (id, contribOf segs i id) := by
  have hsub := toksOf_getD_sublist hi id
  have hvalid : ∀ k ∈ toksOf (segs.getD i []) id, k.Valid := fun k hk =>
    toksOf_valid h.valid id k (hsub.subset hk)
  have hperm := perm_ungroup_group (toksOf (segs.getD i []) id)
  have hpos : ((contribOf segs i id).flatMap Prod.snd).Perm
      ((toksOf (segs.getD i []) id).map Prod.snd) := by
    rw [flatMap_snd_eq]
    exact hperm.map Prod.snd
  refine ⟨?_, ?_, ?_, (group_isGrouping _).nonempty, ?_⟩
  · obtain ⟨t, ht, rfl⟩ := List.mem_map.mp (mem_dictIds.mp hid)
    exact (h.valid t ht).1
  · intro e he
    obtain ⟨d, hd, rfl⟩ := List.mem_map.mp he
    obtain ⟨k, hk, rfl⟩ := List.mem_map.mp (mem_keysOf.mp hd)
    exact (hvalid k hk).1
  · intro v hv
    obtain ⟨k, hk, rfl⟩ := List.mem_map.mp (hpos.mem_iff.mp hv)
    exact (hvalid k hk).2
  · rw [hpos.length_eq, List.length_map]
    refine h.count _ ?_ id
    rw [List.getD_eq_getElem?_getD, List.getElem?_eq_getElem hi, Option.getD_some]
    exact List.getElem_mem hi

/-- **The runs of a feed** are an input of the merge. -/
theorem mergeInput_segs {vocab : List Bytes} (hvocab : vocab.Nodup) {segs : List (List Token)}
    (h : SegsOk vocab segs) :
    MergeInput vocab (contribOf segs) segs.length (dictIds vocab segs.flatten) := by
  have hlt : ∀ id ∈ dictIds vocab segs.flatten, id < vocab.length := by
    intro id hid
    obtain ⟨t, ht, rfl⟩ := List.mem_map.mp (mem_dictIds.mp hid)
    exact h.inVocab t ht
  have hsum : ∀ id, ((List.range segs.length).map fun i =>
      (ungroup (contribOf segs i id)).length).sum = (toksOf segs.flatten id).length := by
    intro id
    rw [toksOf_flatten, List.length_flatMap]
    conv_rhs => rw [← map_getD_range segs [], List.map_map]
    refine congrArg List.sum (List.map_congr_left fun i _ => ?_)
    exact (perm_ungroup_group _).length_eq
  refine ⟨?_, ?_, ?_, ?_, ?_⟩
  · have hle : (dictIds vocab segs.flatten).Pairwise (dictLe vocab) :=
      List.pairwise_insertionSort _ _
    refine (hle.and (nodup_dictIds vocab segs.flatten)).imp_of_mem fun {a b} ha hb hab => ?_
    exact lt_of_le_of_ne hab.1 fun heq => hab.2 (vocab_injective hvocab (hlt a ha) (hlt b hb) heq)
  · intro id hid
    obtain ⟨t, ht, rfl⟩ := List.mem_map.mp (mem_dictIds.mp hid)
    obtain ⟨seg, hseg, hts⟩ := List.mem_flatten.mp ht
    obtain ⟨i, hi, rfl⟩ := List.mem_iff_getElem.mp hseg
    refine ⟨i, hi, fun hnil => ?_⟩
    rw [contribOf, group_eq_nil, toksOf_eq_nil, List.getD_eq_getElem?_getD,
      List.getElem?_eq_getElem hi, Option.getD_some] at hnil
    exact hnil (List.mem_map_of_mem hts)
  · intro i id hi
    rw [contribOf, List.getD_eq_getElem?_getD, List.getElem?_eq_none hi]
    rfl
  · intro id hid i hi _
    exact ⟨contribOf_fits h hid hi, hlt id hid⟩
  · intro id _
    rw [hsum]
    exact h.total id

/-! ## The drains -/

/-- Every term of the segments in dictionary order, its groupings appended. -/
def LaysSegs (plan : TermPostings → List Nat) (allowStream : Bool) (vocab : List Bytes)
    (hasPositions : Bool) (segs : List (List Token)) (out : List Emitted) : Prop :=
  List.Forall₂
    (fun e id => Lays plan allowStream e hasPositions (vocab.getD id []) (segmentGroups segs id))
    out (dictIds vocab segs.flatten)

private theorem segmentGroups_concat_nil (segs : List (List Token)) (id : Nat) :
    segmentGroups (segs ++ [[]]) id = segmentGroups segs id := by
  rw [segmentGroups, List.map_append, List.map_singleton, catAll_concat]
  exact catGroups_nil_right _

private theorem LaysSegs.concat_nil {plan : TermPostings → List Nat} {allowStream : Bool}
    {vocab : List Bytes} {hasPositions : Bool} {segs : List (List Token)} {out : List Emitted}
    (h : LaysSegs plan allowStream vocab hasPositions segs out) :
    LaysSegs plan allowStream vocab hasPositions (segs ++ [[]]) out := by
  unfold LaysSegs at *
  simpa [segmentGroups_concat_nil] using h

/-- The runs of a buffer, merged. -/
private theorem mergeRuns_segs {b : Buffer} {segs : List (List Token)} {cur : List Token}
    (h : BufferInv b segs cur) (hvocab : b.vocab.Nodup) (hsegs : SegsOk b.vocab segs)
    {plan : TermPostings → List Nat} {allowStream : Bool}
    (hplan : Restrained plan) (readSize : Nat → Nat) :
    ∃ out, mergeRuns { vocab := b.vocab, hasPositions := b.hasPositions, plan := plan
                       allowStream := allowStream } readSize b.runs = some (.ok (), out) ∧
      LaysSegs plan allowStream b.vocab b.hasPositions segs out := by
  let cfg : MergeConfig :=
    { vocab := b.vocab, hasPositions := b.hasPositions, plan := plan, allowStream := allowStream }
  obtain ⟨out, hmerge, hout⟩ :=
    @mergeRuns_lays cfg _ _ hplan rfl _ readSize (mergeInput_segs hvocab hsegs)
  refine ⟨out, ?_, ?_⟩
  · rw [h.runs, runFile_eq_pending hvocab b.hasPositions hsegs.inVocab]
    exact hmerge
  · simp only [contribGroups_contribOf] at hout
    exact hout

/-- **Flush and merge**: what is resident becomes the last segment. -/
theorem mergeAll_lays {b : Buffer} {segs : List (List Token)} {cur : List Token} {env : DrainEnv}
    (henv : Good env.spill) (h : BufferInv b segs cur) (hstatus : b.spillStatus = none)
    (hvocab : b.vocab.Nodup) (hsegs : SegsOk b.vocab (segs ++ [cur]))
    {plan : TermPostings → List Nat} {allowStream : Bool}
    (hplan : Restrained plan) :
    ∃ out b', mergeAll env plan allowStream b = some (.ok (), out, b') ∧ b'.spillStatus = none ∧
      LaysSegs plan allowStream b.vocab b.hasPositions (segs ++ [cur]) out := by
  by_cases hcur : b.touchedIds = []
  · have hnil : cur = [] := by
      refine List.eq_nil_iff_forall_not_mem.mpr fun t ht => ?_
      have := (h.touched t.termId).mpr (List.mem_map_of_mem ht)
      rw [hcur] at this
      simp at this
    subst hnil
    have hsegs' : SegsOk b.vocab segs := by
      have hflat : (segs ++ [[]]).flatten = segs.flatten := by simp
      exact ⟨hflat ▸ hsegs.inVocab, hflat ▸ hsegs.valid,
        fun seg hseg => hsegs.count seg (List.mem_append_left _ hseg), hflat ▸ hsegs.total⟩
    obtain ⟨out, hmerge, hout⟩ := mergeRuns_segs h hvocab hsegs' hplan env.readSize
    refine ⟨out, { b with slots := [], freeSlots := [], slotOf := [], spillStatus := none }, ?_, rfl,
      hout.concat_nil⟩
    simp only [mergeAll, hcur, if_true, hstatus, hmerge, Option.map_some]
  · have hvalid : ∀ t ∈ cur, t.Valid := fun t ht => hsegs.valid t (by simp [ht])
    obtain ⟨b1, hspill, hinv, hsame⟩ := spillToRun_inv henv h hvocab hvalid
    have hstatus1 : b1.spillStatus = none := by rw [hsame]; exact hstatus
    have hvoc : b1.vocab = b.vocab := by rw [hsame]
    have hpos : b1.hasPositions = b.hasPositions := by rw [hsame]
    obtain ⟨out, hmerge, hout⟩ := mergeRuns_segs hinv (by rw [hvoc]; exact hvocab)
      (by rw [hvoc]; exact hsegs) hplan env.readSize
    rw [hvoc, hpos] at hout
    refine ⟨out, { b1 with slots := [], freeSlots := [], slotOf := [], spillStatus := none }, ?_, rfl,
      hout⟩
    simp only [mergeAll, hcur, if_false, hspill, hstatus1, hmerge, Option.map_some]

/-- An in-memory drain, in terms of the one segment there is. -/
private theorem drainSorted_segs {b : Buffer} {cur : List Token} (h : BufferInv b [] cur)
    (hvocab : b.vocab.Nodup) (hvalid : ∀ t ∈ cur, t.Valid) {plan : TermPostings → List Nat}
    {allowStream : Bool} (hplan : Restrained plan) :
    LaysSegs plan allowStream b.vocab b.hasPositions [cur] (drainSorted plan allowStream b).1 := by
  have hlays := @drainSorted_lays b [] cur h hvocab hvalid plan allowStream hplan
  unfold LaysAll at hlays
  unfold LaysSegs
  simpa [segmentGroups, catAll, catGroups_nil_left] using hlays

/-- A drain latches nothing of its own. -/
private theorem drainSorted_status {b : Buffer} {segs : List (List Token)} {cur : List Token}
    (h : BufferInv b segs cur) (hvocab : b.vocab.Nodup) (hstatus : b.spillStatus = none)
    (plan : TermPostings → List Nat) (allowStream : Bool) :
    (drainSorted plan allowStream b).2.spillStatus = none := by
  have hids := sortedIds_eq h hvocab
  obtain ⟨_, _, hsame⟩ := takeTerms_spec (sortedIds b) h.slots
    (by rw [hids]; exact nodup_dictIds _ _)
    (fun id hid => by rw [hids] at hid; exact (h.touched id).mpr (mem_dictIds.mp hid))
  show (takeTerms b (sortedIds b)).2.spillStatus = none
  rw [hsame]
  exact hstatus

private theorem Running.atDrain {b : Buffer} {segs : List (List Token)} {cur : List Token}
    (h : Running b segs cur) : BufferInv { b with drained := true } segs cur :=
  ⟨⟨h.inv.slots.size, h.inv.slots.nodup, h.inv.slots.live_iff, h.inv.slots.bound,
    h.inv.slots.inj, h.inv.slots.freeNodup, h.inv.slots.free_iff, h.inv.slots.fresh,
    h.inv.slots.count⟩, h.inv.touched, h.inv.wf, h.inv.chains, h.inv.runs⟩

private theorem Running.runs_eq_nil {b : Buffer} {segs : List (List Token)} {cur : List Token}
    (h : Running b segs cur) (hruns : b.runs = []) : segs = [] := by
  have := h.inv.runs
  rw [hruns] at this
  simpa using this.symm

/-- **The streaming drain** succeeds and returns the segments' groupings. -/
theorem forEachTermSorted_lays {b : Buffer} {segs : List (List Token)} {cur : List Token}
    {env : DrainEnv} (henv : Good env.spill) (h : Running b segs cur) (hvocab : b.vocab.Nodup)
    (hsegs : SegsOk b.vocab (segs ++ [cur])) {plan : TermPostings → List Nat}
    (hplan : Restrained plan) :
    ∃ out b', forEachTermSorted env plan b = some (.ok (), out, b') ∧
      LaysSegs plan true b.vocab b.hasPositions (segs ++ [cur]) out := by
  rw [forEachTermSorted, if_neg (by simp [h.drained])]
  dsimp only
  by_cases hruns : b.runs = []
  · obtain rfl := h.runs_eq_nil hruns
    rw [if_pos ⟨hruns, h.status⟩]
    have hvalid : ∀ t ∈ cur, t.Valid := fun t ht => hsegs.valid t (by simp [ht])
    exact ⟨_, _, rfl, drainSorted_segs h.atDrain hvocab hvalid hplan⟩
  · rw [if_neg fun hboth => hruns hboth.1]
    obtain ⟨out, b', hmerge, _, hout⟩ :=
      @mergeAll_lays _ segs cur env henv h.atDrain h.status hvocab hsegs plan true hplan
    exact ⟨out, b', hmerge, hout⟩

/-- **The collecting drain** latches no error and returns the same. -/
theorem finalizeSorted_lays {b : Buffer} {segs : List (List Token)} {cur : List Token}
    {env : DrainEnv} (henv : Good env.spill) (h : Running b segs cur) (hvocab : b.vocab.Nodup)
    (hsegs : SegsOk b.vocab (segs ++ [cur])) :
    ∃ out b', finalizeSorted env b = some (out, b') ∧ b'.spillStatus = none ∧
      LaysSegs (fun _ => []) false b.vocab b.hasPositions (segs ++ [cur]) out := by
  have hplan : Restrained fun _ => [] := fun _ _ => Nat.zero_le _
  rw [finalizeSorted, if_neg (by simp [h.drained])]
  dsimp only
  by_cases hruns : b.runs = []
  · obtain rfl := h.runs_eq_nil hruns
    rw [if_pos ⟨hruns, h.status⟩]
    have hvalid : ∀ t ∈ cur, t.Valid := fun t ht => hsegs.valid t (by simp [ht])
    refine ⟨_, _, rfl, ?_, drainSorted_segs h.atDrain hvocab hvalid hplan⟩
    exact drainSorted_status h.atDrain hvocab h.status (fun _ => []) false
  · rw [if_neg fun hboth => hruns hboth.1]
    obtain ⟨out, b', hmerge, hstatus, hout⟩ :=
      mergeAll_lays henv h.atDrain h.status hvocab hsegs hplan
    exact ⟨out, b', by rw [hmerge]; rfl, hstatus, hout⟩

/-! ## The reference -/

/-- What a consumer sees of a term: its string, docids, freqs and positions. -/
def view (e : Emitted) : Bytes × List Nat × List Nat × List Nat :=
  (e.postings.term, e.postings.docids, e.postings.freqs, e.positions)

/-- The four of them for a list of groups. -/
def layout (hasPositions : Bool) (term : Bytes) (g : List (Nat × List Nat)) :
    Bytes × List Nat × List Nat × List Nat :=
  (term, g.map Prod.fst, g.map (fun e => e.2.length), posOf hasPositions g)

/-- The reference grouping of a feed: terms in lexicographic order, each docid
once and ascending with its number of tokens, positions in arrival order. -/
def reference (vocab : List Bytes) (hasPositions : Bool) (toks : List Token) :
    List (Bytes × List Nat × List Nat × List Nat) :=
  (dictIds vocab toks).map fun id =>
    layout hasPositions (vocab.getD id []) (group (toksOf toks id))

/-- What lays out a grouping is seen as it. -/
theorem Lays.view_eq {plan : TermPostings → List Nat} {allowStream : Bool} {e : Emitted}
    {hasPositions : Bool} {term : Bytes} {g : List (Nat × List Nat)}
    (h : Lays plan allowStream e hasPositions term g) (hplan : allowStream = true → Drains plan)
    (hsmall : ∀ x ∈ g, x.2.length < 2 ^ 32) : view e = layout hasPositions term g := by
  simp only [view, layout, h.term, h.docids, h.freqs, freqsOf_of_lt hsmall, h.positions hplan, posOf]

theorem ungroup_segmentGroups (segs : List (List Token)) (id : Nat) :
    (ungroup (segmentGroups segs id)).length = (toksOf segs.flatten id).length := by
  rw [segmentGroups, ungroup_catAll, toksOf_flatten, List.flatMap_map, List.length_flatMap,
    List.length_flatMap]
  exact congrArg List.sum (List.map_congr_left fun seg _ => (perm_ungroup_group _).length_eq)

/-- No document has more tokens than the whole term. -/
theorem segmentGroups_small {segs : List (List Token)} {id : Nat}
    (hcount : (toksOf segs.flatten id).length < 2 ^ 32) :
    ∀ e ∈ segmentGroups segs id, e.2.length < 2 ^ 32 := by
  intro e he
  have hle := length_le_flatMap he
  rw [flatMap_snd_eq, List.length_map, ungroup_segmentGroups] at hle
  exact Nat.lt_of_le_of_lt hle hcount

/-- What a drain lays out, term by term. -/
theorem LaysSegs.view_eq {plan : TermPostings → List Nat} {allowStream : Bool}
    {vocab : List Bytes} {hasPositions : Bool} {segs : List (List Token)} {out : List Emitted}
    (h : LaysSegs plan allowStream vocab hasPositions segs out)
    (hplan : allowStream = true → Drains plan)
    (hcount : ∀ id, (toksOf segs.flatten id).length < 2 ^ 32) :
    out.map view = (dictIds vocab segs.flatten).map fun id =>
      layout hasPositions (vocab.getD id []) (segmentGroups segs id) := by
  unfold LaysSegs at h
  generalize dictIds vocab segs.flatten = ids at h
  induction h with
  | nil => rfl
  | cons hlays _ ih =>
      rw [List.map_cons, List.map_cons, hlays.view_eq hplan (segmentGroups_small (hcount _)), ih]

/-- Each term's docids arrive in non-decreasing order. -/
def InOrder (toks : List Token) : Prop :=
  ∀ id, (toksOf toks id).Pairwise fun a b => a.1 ≤ b.1

/-- A group has a token. -/
theorem mem_group_key {l : List Tok} {e : Nat × List Nat} (he : e ∈ group l) :
    ∃ k ∈ l, k.1 = e.1 := by
  obtain ⟨d, hd, rfl⟩ := List.mem_map.mp he
  obtain ⟨k, hk, hkd⟩ := List.mem_map.mp (mem_keysOf.mp hd)
  exact ⟨k, hk, hkd⟩

/-- A token has a group. -/
theorem exists_mem_group {l : List Tok} {k : Tok} (hk : k ∈ l) : ∃ e ∈ group l, e.1 = k.1 :=
  ⟨(k.1, valuesOf k.1 l),
    List.mem_map.mpr ⟨k.1, mem_keysOf.mpr (List.mem_map_of_mem hk), rfl⟩, rfl⟩

/-- The appended groupings ascend exactly when no docid of an earlier segment
exceeds one of a later segment. -/
theorem segmentGroups_ascending_iff (segs : List (List Token)) (id : Nat) :
    ((segmentGroups segs id).Pairwise fun a b => a.1 < b.1) ↔
      segs.Pairwise fun s t => ∀ a ∈ toksOf s id, ∀ b ∈ toksOf t id, a.1 ≤ b.1 := by
  rw [segmentGroups, catAll_ascending_iff, List.pairwise_map]
  · refine List.Pairwise.iff fun s t => ?_
    constructor
    · intro h a ha b hb
      obtain ⟨e, he, hea⟩ := exists_mem_group ha
      obtain ⟨f, hf, hfb⟩ := exists_mem_group hb
      rw [← hea, ← hfb]
      exact h e he f hf
    · intro h e he f hf
      obtain ⟨a, ha, hae⟩ := mem_group_key he
      obtain ⟨b, hb, hbf⟩ := mem_group_key hf
      rw [← hae, ← hbf]
      exact h a ha b hb
  · intro g hg
    obtain ⟨seg, _, rfl⟩ := List.mem_map.mp hg
    exact group_isGrouping _

/-- No group is empty. -/
theorem segmentGroups_nonempty (segs : List (List Token)) (id : Nat) :
    ∀ e ∈ segmentGroups segs id, e.2 ≠ [] := by
  refine catAll_nonempty fun g hg => ?_
  obtain ⟨seg, _, rfl⟩ := List.mem_map.mp hg
  exact (group_isGrouping _).nonempty

/-- The values under each docid are those of the whole feed, in arrival order. -/
theorem valuesOf_segmentGroups (segs : List (List Token)) (id d : Nat) :
    valuesOf d (ungroup (segmentGroups segs id)) = valuesOf d (toksOf segs.flatten id) := by
  rw [segmentGroups, ungroup_catAll, toksOf_flatten]
  induction segs with
  | nil => rfl
  | cons seg segs ih =>
      rw [List.map_cons, List.flatMap_cons, List.flatMap_cons, valuesOf_append, valuesOf_append, ih,
        valuesOf_ungroup_group]

/-- **In-order feeds**: however the feed was cut, the appended groupings are the
grouping of the whole. -/
theorem segmentGroups_eq_group {segs : List (List Token)} {id : Nat}
    (h : (toksOf segs.flatten id).Pairwise fun a b => a.1 ≤ b.1) :
    segmentGroups segs id = group (toksOf segs.flatten id) := by
  rw [toksOf_flatten, List.pairwise_flatMap] at h
  exact eq_group_of_valuesOf
    ⟨(segmentGroups_ascending_iff segs id).mpr h.2, segmentGroups_nonempty segs id⟩
    (valuesOf_segmentGroups segs id)

/-- **In order**, what is laid out is the reference grouping. -/
theorem LaysSegs.view_eq_reference {plan : TermPostings → List Nat} {allowStream : Bool}
    {vocab : List Bytes} {hasPositions : Bool} {segs : List (List Token)} {out : List Emitted}
    (h : LaysSegs plan allowStream vocab hasPositions segs out)
    (hplan : allowStream = true → Drains plan)
    (hcount : ∀ id, (toksOf segs.flatten id).length < 2 ^ 32) (hord : InOrder segs.flatten) :
    out.map view = reference vocab hasPositions segs.flatten := by
  rw [h.view_eq hplan hcount, reference]
  refine List.map_congr_left fun id _ => ?_
  rw [segmentGroups_eq_group (hord id)]

/-! ## Whole builds -/

/-- A feed starts with an empty arena and no segment. -/
theorem Constructed.running {b : Buffer} (h : Constructed b) : Running b [] [] := by
  have hres := h.resident
  cases h <;>
    exact ⟨⟨hres.slots, hres.touched, hres.wf, hres.chains, rfl⟩, rfl,
      (by decide : 0 * kBlockSize < kArenaSpillCap), rfl, by simp⟩

/-- A feed and the segments it was cut into have the same tokens. -/
private theorem segsOk_feed {b : Buffer} {vocab : List Bytes} {feed : List (Token × TokenEnv)}
    {segs : List (List Token)} {cur : List Token} (hrun : Running b segs cur)
    (hfeed : FeedOk vocab feed)
    (htotal : ∀ id, (toksOf (feed.map Prod.fst) id).length < 2 ^ 64)
    (hflat : (segs ++ [cur]).flatten = feed.map Prod.fst) : SegsOk vocab (segs ++ [cur]) := by
  refine ⟨?_, ?_, hrun.small_concat, by rw [hflat]; exact htotal⟩
  · rw [hflat]
    intro t ht
    obtain ⟨x, hx, rfl⟩ := List.mem_map.mp ht
    exact hfeed.inVocab x hx
  · rw [hflat]
    intro t ht
    obtain ⟨x, hx, rfl⟩ := List.mem_map.mp ht
    exact hfeed.valid x hx

/-- **Any build**: the feed is accepted whole and either drain succeeds with the
groupings of the segments the spills cut the feed into. -/
theorem build_lays (vocab : List Bytes) (hasPositions : Bool) (spillThresholdBytes : Nat)
    (hasReporter : Bool) (feed : List (Token × TokenEnv)) (env : DrainEnv)
    (plan : TermPostings → List Nat) (hvocab : vocab.Nodup) (hfeed : FeedOk vocab feed)
    (htotal : ∀ id, (toksOf (feed.map Prod.fst) id).length < 2 ^ 64) (henv : Good env.spill)
    (hplan : Restrained plan) :
    let start := Buffer.borrowed vocab hasPositions spillThresholdBytes hasReporter
    let segs := (segmentsAfter start feed [] []).1 ++ [(segmentsAfter start feed [] []).2]
    segs.flatten = feed.map Prod.fst ∧ ∃ b, addTokens start feed = some b ∧
      (∃ out b', forEachTermSorted env plan b = some (.ok (), out, b') ∧
        LaysSegs plan true vocab hasPositions segs out) ∧
      ∃ out b', finalizeSorted env b = some (out, b') ∧ b'.spillStatus = none ∧
        LaysSegs (fun _ => []) false vocab hasPositions segs out := by
  intro start segs
  have hrun := (Constructed.borrowed vocab hasPositions spillThresholdBytes hasReporter).running
  obtain ⟨b, hadd, hcfg, hb, hflat⟩ := addTokens_inv feed hrun hvocab hfeed (by simp)
  have hflat' : segs.flatten = feed.map Prod.fst := by
    simpa [segs, start] using hflat
  have hsegs := segsOk_feed hb hfeed htotal hflat'
  have hvoc : b.vocab = vocab := hcfg.vocab
  have hpos : b.hasPositions = hasPositions := hcfg.hasPositions
  have hvocab' : b.vocab.Nodup := by rw [hvoc]; exact hvocab
  have hsegs' : SegsOk b.vocab segs := by rw [hvoc]; exact hsegs
  obtain ⟨out1, b1, h1, hlays1⟩ := forEachTermSorted_lays henv hb hvocab' hsegs' hplan
  obtain ⟨out2, b2, h2, hstatus, hlays2⟩ := finalizeSorted_lays henv hb hvocab' hsegs'
  rw [hvoc, hpos] at hlays1 hlays2
  exact ⟨hflat', b, hadd, ⟨out1, b1, h1, hlays1⟩, ⟨out2, b2, h2, hstatus, hlays2⟩⟩

/-- **Spilling is transparent.**  For a feed whose docids arrive in order per
term, every choice of spill points (threshold, reporter answers, arena stop), of
read sizes and of pulls from the pump gives the reference grouping of the feed,
from either drain. -/
theorem build_eq_reference (vocab : List Bytes) (hasPositions : Bool) (spillThresholdBytes : Nat)
    (hasReporter : Bool) (feed : List (Token × TokenEnv)) (env : DrainEnv)
    (plan : TermPostings → List Nat) (hvocab : vocab.Nodup) (hfeed : FeedOk vocab feed)
    (hcount : ∀ id, (toksOf (feed.map Prod.fst) id).length < 2 ^ 32)
    (hord : InOrder (feed.map Prod.fst)) (henv : Good env.spill) (hplan : Drains plan) :
    ∃ b, addTokens (Buffer.borrowed vocab hasPositions spillThresholdBytes hasReporter) feed =
        some b ∧
      (∃ out b', forEachTermSorted env plan b = some (.ok (), out, b') ∧
        out.map view = reference vocab hasPositions (feed.map Prod.fst)) ∧
      ∃ out b', finalizeSorted env b = some (out, b') ∧ b'.spillStatus = none ∧
        out.map view = reference vocab hasPositions (feed.map Prod.fst) := by
  obtain ⟨hflat, b, hadd, ⟨out1, b1, h1, hlays1⟩, out2, b2, h2, hstatus, hlays2⟩ :=
    build_lays vocab hasPositions spillThresholdBytes hasReporter feed env plan hvocab hfeed
      (fun id => Nat.lt_trans (hcount id) (by decide)) henv hplan.restrained
  rw [← hflat] at hord hcount ⊢
  exact ⟨b, hadd, ⟨out1, b1, h1, hlays1.view_eq_reference (fun _ => hplan) hcount hord⟩,
    out2, b2, h2, hstatus, hlays2.view_eq_reference (by simp) hcount hord⟩

/-- Two terms, with a spill between two tokens of one document. -/
def splitFeed : List (Token × TokenEnv) :=
  [(⟨0, 1, 4⟩, { overCap := true }), (⟨0, 1, 6⟩, {}), (⟨1, 1, 5⟩, { overCap := true }),
    (⟨0, 2, 0⟩, {})]

theorem build_eq_reference_splitFeed :
    ∃ b, addTokens (Buffer.borrowed [[98], [97]] true 0 true) splitFeed = some b ∧
      (∃ out b', forEachTermSorted {} (fun tp => [tp.posTotal]) b = some (.ok (), out, b') ∧
        out.map view = [([97], [1], [1], [5]), ([98], [1, 2], [2, 1], [4, 6, 0])]) ∧
      ∃ out b', finalizeSorted {} b = some (out, b') ∧ b'.spillStatus = none ∧
        out.map view = [([97], [1], [1], [5]), ([98], [1, 2], [2, 1], [4, 6, 0])] := by
  have hfeed : FeedOk [[98], [97]] splitFeed := by
    refine ⟨by decide, by unfold Token.Valid; decide, fun x hx => ?_⟩
    simp only [splitFeed, List.mem_cons, List.not_mem_nil, or_false] at hx
    rcases hx with rfl | rfl | rfl | rfl <;> exact ⟨rfl, rfl, fun _ => rfl, rfl⟩
  have hord : InOrder (splitFeed.map Prod.fst) := by
    intro id
    have hdocs : (splitFeed.map Prod.fst).Pairwise fun a b => a.docid ≤ b.docid := by decide
    exact List.pairwise_map.mpr (hdocs.filter _)
  have hcount : ∀ id, (toksOf (splitFeed.map Prod.fst) id).length < 2 ^ 32 := by
    intro id
    have hle := List.length_filter_le (fun t => decide (t.termId = id)) (splitFeed.map Prod.fst)
    rw [toksOf, List.length_map]
    exact Nat.lt_of_le_of_lt hle (by decide)
  have href : reference [[98], [97]] true (splitFeed.map Prod.fst) =
      [([97], [1], [1], [5]), ([98], [1, 2], [2, 1], [4, 6, 0])] := by decide +kernel
  rw [← href]
  exact build_eq_reference [[98], [97]] true 0 true splitFeed {} (fun tp => [tp.posTotal])
    (by decide) hfeed hcount hord ⟨rfl, rfl, fun _ => rfl, rfl⟩ (fun tp _ => by simp)

end Snii.Writer.SpimiTermBuffer
