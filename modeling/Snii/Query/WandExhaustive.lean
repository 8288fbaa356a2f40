import Snii.Query.TopKQueue

/-!
# Block-max WAND against exhaustive scoring

Along a run the queue holds the best `k` of the documents offered so far, every
offer carries the document's full score, and a posting that a cursor has moved
past belongs to an offered document or to a pruned one (`WandInv`).  The two
paths return the same list exactly when no document of the true top `k` is
pruned before it is offered (`NoPrunedWinner`).  Whether that happens can be
read off the postings and the windows (`BoundsReach`): wherever the cursors
stand, the bounds of their windows must not fall short of a document ahead that
fewer than `k` documents rank before.  Window bounds that never rise along a
cursor never do; a later, higher window can.
-/

namespace Snii.Query.ScoringQuery

open Snii.Lib Snii.Lib.TopK

/-- What `BuildWindowBounds` and `SingleWindowFallback` provide: ascending
postings below the sentinel with non-negative scores, windows ascending by
`last_docid`, and for each posting a window that covers it (the first one whose
`last_docid` reaches it) with a `max_score` of at least the posting's score. -/
structure TermCursor.WellBounded (c : TermCursor) : Prop where
  ascending : c.postings.Pairwise (fun p q => p.docid < q.docid)
  inRange : ∀ p ∈ c.postings, p.docid < uint32Max
  scoreNonneg : ∀ p ∈ c.postings, 0 ≤ p.score
  windowsAscending : c.windows.Pairwise (fun v w => v.lastDocid < w.lastDocid)
  covered : ∀ p ∈ c.postings, ∃ w, c.windows.find? (fun w => p.docid ≤ w.lastDocid) = some w ∧
    p.score ≤ w.maxScore

/-- A posting's score is within its window's bound. -/
theorem TermCursor.WellBounded.score_le {c : TermCursor} (hc : c.WellBounded)
    {p : TermPosting} (hp : p ∈ c.postings) : p.score ≤ termBoundAt c p.docid := by
  obtain ⟨w, hw, hle⟩ := hc.covered p hp
  rw [termBoundAt, hw]
  exact hle

theorem TermCursor.WellBounded.toAscending {c : TermCursor} (hc : c.WellBounded) :
    c.Ascending :=
  ⟨hc.ascending, hc.inRange,
    fun p hp => le_trans (hc.scoreNonneg p hp) (hc.score_le hp)⟩

/-- A cursor apart from its position. -/
def TermCursor.shape (c : TermCursor) : TermCursor := { c with pos := 0 }

/-- The postings a cursor has moved past. -/
def TermCursor.passed (c : TermCursor) : List TermPosting := c.postings.take c.pos

/-- A posting is passed or still to come. -/
theorem TermCursor.mem_passed_or_remaining {c : TermCursor} {p : TermPosting}
    (hp : p ∈ c.postings) : p ∈ c.passed ∨ p ∈ c.remaining := by
  rw [← List.mem_append, passed, remaining, List.take_append_drop]
  exact hp

/-- Moving a cursor keeps its postings. -/
theorem shape_advanceAt (f : Nat) (c : TermCursor) : (advanceAt f c).shape = c.shape := by
  unfold advanceAt
  split <;> rfl

theorem shape_skipTo (d : Nat) (c : TermCursor) : (skipTo d c).shape = c.shape := rfl

/-- The full score does not depend on the cursors' order. -/
theorem fullScore_perm {cs ds : List TermCursor}
    (h : (cs.map TermCursor.shape).Perm (ds.map TermCursor.shape)) (d : Nat) :
    fullScore cs d = fullScore ds d := by
  have hp := (h.map fun c => postingScore c.postings d).sum_eq
  simpa [fullScore, List.map_map, Function.comp_def, TermCursor.shape] using hp

/-- Nor does having a posting. -/
theorem exists_posting_perm {cs ds : List TermCursor}
    (h : (cs.map TermCursor.shape).Perm (ds.map TermCursor.shape)) {d : Nat}
    (hd : ∃ c ∈ ds, ∃ p ∈ c.postings, p.docid = d) : ∃ c ∈ cs, ∃ p ∈ c.postings, p.docid = d := by
  obtain ⟨c, hc, p, hp, hpd⟩ := hd
  obtain ⟨c', hc', heq⟩ := List.mem_map.mp (h.mem_iff.mpr (List.mem_map_of_mem hc))
  have hpost : c'.postings = c.postings := (TermCursor.mk.inj heq).1
  exact ⟨c', hc', p, by rw [hpost]; exact hp, hpd⟩

/-! ## The invariant of a run -/

/-- A state of the loop started on `orig`, after the offers `offered`. -/
structure WandInv (orig : List TermCursor) (k : Nat) (offered : List Entry)
    (cs : List TermCursor) (t : TopK) : Prop where
  ascending : ∀ c ∈ cs, c.Ascending
  moved : (cs.map TermCursor.shape).Perm (orig.map TermCursor.shape)
  queue : t = queueOf k offered
  exact : ∀ e ∈ offered, e ∈ scoredDocs orig
  nodup : (offered.map Prod.snd).Nodup
  behind : ∀ e ∈ offered, ∀ c ∈ cs, e.2 < currentDoc c
  accounted : ∀ c ∈ cs, ∀ p ∈ c.passed,
    p.docid ∈ offered.map Prod.snd ∨ Pruned t.threshold cs p.docid

theorem WandInv.start {cs : List TermCursor} (hcs : ∀ c ∈ cs, c.Ascending)
    (hpos : ∀ c ∈ cs, c.pos = 0) (k : Nat) :
    WandInv cs k [] cs { k := k, heap := [] } where
  ascending := hcs
  moved := List.Perm.refl _
  queue := (queueOf_nil k).symm
  exact := by simp
  nodup := by simp
  behind := by simp
  accounted := by
    intro c hc p hp
    rw [TermCursor.passed, hpos c hc] at hp
    simp at hp

variable {orig cs : List TermCursor} {k : Nat} {offered : List Entry} {t : TopK}

/-- A document some cursor can still score was never moved past. -/
theorem WandInv.notMem_passed (h : WandInv orig k offered cs t) {f : Nat}
    (stands : ∃ c ∈ cs, currentDoc c = f) (reach : t.threshold ≤ boundUpTo cs f)
    {c : TermCursor} (hc : c ∈ cs) {p : TermPosting} (hp : p ∈ c.passed) : p.docid ≠ f := by
  rintro rfl
  rcases h.accounted c hc p hp with hoff | hpruned
  · obtain ⟨e, he, heq⟩ := List.mem_map.mp hoff
    obtain ⟨c', hc', hcur⟩ := stands
    have := h.behind e he c' hc'
    omega
  · exact absurd hpruned (not_lt.mpr reach)

/-- A cursor adds to the front document exactly what its postings hold for it. -/
theorem scoreAt_eq_postingScore {f : Nat} {c : TermCursor} (hc : c.Ascending)
    (hf : f < uint32Max) (hle : f ≤ currentDoc c) (hpassed : ∀ p ∈ c.passed, p.docid ≠ f) :
    scoreAt f c = postingScore c.postings f := by
  unfold scoreAt
  split
  · rename_i heq
    obtain ⟨p, rest, hrem, hcur⟩ := exists_remaining (c := c) (by omega)
    have hget : c.postings[c.pos]? = some p := by
      rw [← List.head?_drop, ← TermCursor.remaining, hrem]
      rfl
    have hmem : p ∈ c.postings := TermCursor.Ascending.mem_remaining (by simp [hrem])
    have hpf : p.docid = f := by omega
    rw [hget, ← hpf, postingScore_of_mem hc.ascending hmem]
    rfl
  · rename_i hne
    symm
    refine postingScore_eq_zero fun p hp => ?_
    rcases TermCursor.mem_passed_or_remaining hp with hp | hp
    · exact hpassed p hp
    · have := hc.currentDoc_le_of_mem hp
      omega

/-- The entry an iteration scores is the document with its full score. -/
theorem WandInv.score_exact (h : WandInv orig k offered cs t) {sorted : List TermCursor}
    {f : Nat} (perm : sorted.Perm cs) (live : f < uint32Max)
    (front : ∀ c ∈ sorted, f ≤ currentDoc c) (stands : ∃ c ∈ sorted, currentDoc c = f)
    (reach : t.threshold ≤ boundUpTo sorted f) :
    ((sorted.map (scoreAt f)).sum, f) ∈ scoredDocs orig := by
  have hstands : ∃ c ∈ cs, currentDoc c = f := by
    obtain ⟨c, hc, heq⟩ := stands
    exact ⟨c, perm.mem_iff.mp hc, heq⟩
  have hreach : t.threshold ≤ boundUpTo cs f := by rwa [← boundUpTo_perm perm]
  rw [mem_scoredDocs]
  refine ⟨?_, ?_⟩
  · obtain ⟨c, hc, heq⟩ := hstands
    obtain ⟨p, rest, hrem, hcur⟩ := exists_remaining (c := c) (by omega)
    refine exists_posting_perm h.moved.symm ⟨c, hc, p, ?_, by omega⟩
    exact TermCursor.Ascending.mem_remaining (by simp [hrem])
  · calc (sorted.map (scoreAt f)).sum
        = (sorted.map fun c => postingScore c.postings f).sum := by
          congr 1
          refine List.map_congr_left fun c hc => ?_
          have hc' := perm.mem_iff.mp hc
          exact scoreAt_eq_postingScore (h.ascending c hc') live (front c hc)
            fun p hp => h.notMem_passed hstands hreach hc' hp
      _ = fullScore cs f := (perm.map _).sum_eq
      _ = fullScore orig f := fullScore_perm h.moved f

/-- Advancing at a document passes that document only. -/
theorem mem_passed_advanceAt {f : Nat} {c : TermCursor} {p : TermPosting} (hf : f < uint32Max)
    (hp : p ∈ (advanceAt f c).passed) : p ∈ c.passed ∨ p.docid = f := by
  unfold advanceAt at hp
  split at hp
  · rename_i heq
    obtain ⟨q, rest, hrem, hcur⟩ := exists_remaining (c := c) (by omega)
    simp only [TermCursor.passed, List.take_add, List.mem_append] at hp
    rcases hp with hp | hp
    · exact Or.inl hp
    · rw [← TermCursor.remaining, hrem] at hp
      simp only [List.take_succ_cons, List.take_zero, List.mem_singleton] at hp
      rw [hp]
      exact Or.inr (by omega)
  · exact Or.inl hp

/-- Skipping passes what is below the target. -/
theorem mem_passed_skipTo {d : Nat} {c : TermCursor} {p : TermPosting}
    (hp : p ∈ (skipTo d c).passed) : p ∈ c.passed ∨ (p.docid < d ∧ p ∈ c.remaining) := by
  simp only [TermCursor.passed, skipTo, List.take_add, List.mem_append] at hp
  rcases hp with hp | hp
  · exact Or.inl hp
  · right
    refine ⟨?_, List.mem_of_mem_take hp⟩
    have htake := List.prefix_iff_eq_take.mp
      (List.takeWhile_prefix (l := c.postings.drop c.pos) fun p => decide (p.docid < d))
    rw [← htake] at hp
    simpa using List.all_eq_true.mp List.all_takeWhile p hp

/-- A document is pruned only by a positive threshold, which does not fall. -/
theorem WandInv.threshold_le (h : WandInv orig k offered cs t) (hk : 0 < k) {d : Nat}
    (hd : d < uint32Max) (hpruned : Pruned t.threshold cs d) (o : Option Entry) :
    t.threshold ≤ (t.after o).threshold := by
  have hpos : 0 < t.threshold := lt_of_le_of_lt (boundUpTo_nonneg h.ascending hd) hpruned
  rw [h.queue] at hpos ⊢
  rw [after_queueOf]
  exact threshold_le_after_of_pos hk hpos o

/-- Nothing offered is ahead, so an iteration's offer is new. -/
theorem WandInv.nodup_cons (h : WandInv orig k offered cs t) {e : Entry}
    (hnew : ∃ c ∈ cs, currentDoc c = e.2) : ((e :: offered).map Prod.snd).Nodup := by
  rw [List.map_cons, List.nodup_cons]
  refine ⟨?_, h.nodup⟩
  intro hmem
  obtain ⟨e', he', heq⟩ := List.mem_map.mp hmem
  obtain ⟨c, hc, hcur⟩ := hnew
  have := h.behind e' he' c hc
  omega

/-- The scoring iteration keeps the invariant. -/
private theorem WandInv.step_score (h : WandInv orig k offered cs t) (hk : 0 < k)
    {sorted : List TermCursor} {f : Nat} (perm : sorted.Perm cs) (live : f < uint32Max)
    (front : ∀ c ∈ sorted, f ≤ currentDoc c) (stands : ∃ c ∈ sorted, currentDoc c = f)
    (reach : t.threshold ≤ boundUpTo sorted f) :
    WandInv orig k (((sorted.map (scoreAt f)).sum, f) :: offered) (sorted.map (advanceAt f))
      (t.offer f (sorted.map (scoreAt f)).sum) := by
  have hmove : WandMove t.threshold cs
      { cursors := sorted.map (advanceAt f), offer := some ((sorted.map (scoreAt f)).sum, f) } :=
    WandMove.score sorted f perm live front stands reach
  have hexact := h.score_exact perm live front stands reach
  have hstands : ∃ c ∈ cs, currentDoc c = f := by
    obtain ⟨c, hc, heq⟩ := stands
    exact ⟨c, perm.mem_iff.mp hc, heq⟩
  have hqueue : t.offer f (sorted.map (scoreAt f)).sum =
      queueOf k (((sorted.map (scoreAt f)).sum, f) :: offered) := by
    rw [h.queue]
    exact after_queueOf k offered (some ((sorted.map (scoreAt f)).sum, f))
  have hmoved : ((sorted.map (advanceAt f)).map TermCursor.shape).Perm
      (orig.map TermCursor.shape) := by
    rw [List.map_map]
    have heq : sorted.map (TermCursor.shape ∘ advanceAt f) = sorted.map TermCursor.shape :=
      List.map_congr_left fun c _ => shape_advanceAt f c
    rw [heq]
    exact (perm.map _).trans h.moved
  refine ⟨hmove.ascending h.ascending, hmoved, hqueue, ?_, ?_, ?_, ?_⟩
  · intro e he
    rcases List.mem_cons.mp he with rfl | he
    · exact hexact
    · exact h.exact e he
  · exact h.nodup_cons hstands
  · intro e he c hc
    obtain ⟨c', hc', rfl⟩ := List.mem_map.mp hc
    have hlt := lt_currentDoc_advanceAt (h.ascending c' (perm.mem_iff.mp hc')) live
      (front c' hc')
    rcases List.mem_cons.mp he with rfl | he
    · exact hlt
    · obtain ⟨c₀, hc₀, hcur⟩ := hstands
      have := h.behind e he c₀ hc₀
      omega
  · intro c hc p hp
    obtain ⟨c', hc', rfl⟩ := List.mem_map.mp hc
    rcases mem_passed_advanceAt live hp with hp | hpf
    · have hc'' := perm.mem_iff.mp hc'
      have hpmem : p ∈ c'.postings := List.mem_of_mem_take hp
      rcases h.accounted c' hc'' p hp with hoff | hpruned
      · exact Or.inl (List.mem_cons_of_mem _ hoff)
      · have hrange := (h.ascending c' hc'').inRange p hpmem
        have htheta := h.threshold_le hk hrange hpruned (some ((sorted.map (scoreAt f)).sum, f))
        exact Or.inr (Pruned.step h.ascending hrange htheta hpruned hmove).1
    · exact Or.inl (by simp [hpf])

/-- The skipping iteration keeps the invariant. -/
private theorem WandInv.step_skip (h : WandInv orig k offered cs t) {c : TermCursor}
    {rest : List TermCursor} {d : Nat} (perm : (c :: rest).Perm cs)
    (lag : currentDoc c < d) (live : d < uint32Max)
    (pruned : ∀ e < d, Pruned t.threshold (c :: rest) e)
    (reach : t.threshold ≤ boundUpTo (c :: rest) d) :
    WandInv orig k offered (skipTo d c :: rest) t := by
  have hmove : WandMove t.threshold cs { cursors := skipTo d c :: rest, offer := none } :=
    WandMove.skip c rest d perm lag live pruned reach
  have hasc : ∀ x ∈ c :: rest, x.Ascending := fun x hx => h.ascending x (perm.mem_iff.mp hx)
  have hkeep : ∀ e < uint32Max, Pruned t.threshold cs e →
      Pruned t.threshold (skipTo d c :: rest) e := fun e he hpr =>
    (Pruned.step h.ascending he (le_refl _) hpr hmove).1
  refine ⟨hmove.ascending h.ascending, ?_, h.queue, h.exact, h.nodup, ?_, ?_⟩
  · rw [List.map_cons, shape_skipTo, ← List.map_cons]
    exact (perm.map _).trans h.moved
  · intro e he x hx
    rcases List.mem_cons.mp hx with rfl | hx
    · have := h.behind e he c (perm.mem_iff.mp (by simp))
      have := le_currentDoc_skipTo live.le c
      omega
    · exact h.behind e he x (perm.mem_iff.mp (by simp [hx]))
  · intro x hx p hp
    have hold : ∀ y ∈ c :: rest, p ∈ y.passed →
        p.docid ∈ offered.map Prod.snd ∨ Pruned t.threshold (skipTo d c :: rest) p.docid := by
      intro y hy hpy
      have hy' := perm.mem_iff.mp hy
      rcases h.accounted y hy' p hpy with hoff | hpr
      · exact Or.inl hoff
      · exact Or.inr (hkeep _ ((h.ascending y hy').inRange p (List.mem_of_mem_take hpy)) hpr)
    rcases List.mem_cons.mp hx with rfl | hx
    · rcases mem_passed_skipTo hp with hp | ⟨hlt, _⟩
      · exact hold c (by simp) hp
      · right
        refine hkeep _ (by omega) ?_
        have hpr := pruned p.docid hlt
        rwa [Pruned, boundUpTo_perm perm] at hpr
    · exact hold x (by simp [hx]) hp

/-- **Step**: an iteration keeps the invariant. -/
theorem WandInv.step (h : WandInv orig k offered cs t) (hk : 0 < k) {out : StepOut}
    (hmove : WandMove t.threshold cs out) :
    WandInv orig k (out.offer.toList ++ offered) out.cursors (t.after out.offer) := by
  cases hmove with
  | score sorted f perm live front stands reach =>
      exact h.step_score hk perm live front stands reach
  | skip c rest d perm lag live pruned reach =>
      exact h.step_skip perm lag live pruned reach

/-- **Run**: every state the loop passes through satisfies the invariant. -/
theorem WandInv.run {srt : DocSort} {cs' : List TermCursor} {t' : TopK} {offs : List Entry}
    (hreach : WandReach srt cs t offs cs' t') (hk : 0 < k)
    (h : WandInv orig k offered cs t) :
    WandInv orig k (offs.reverse ++ offered) cs' t' := by
  induction hreach generalizing offered with
  | refl => simpa using h
  | @step cs cs' t t' out offs hstep _ ih =>
      have hnext := ih (h.step hk (wandStep_some h.ascending hstep))
      have hlist : (out.offer.toList ++ offs).reverse ++ offered =
          offs.reverse ++ (out.offer.toList ++ offered) := by
        cases out.offer <;> simp
      rw [hlist]
      exact hnext

/-- **A pruned document is never offered**, however the run continues. -/
theorem WandInv.pruned_run {srt : DocSort} {cs' : List TermCursor} {t' : TopK}
    {offs : List Entry} (hreach : WandReach srt cs t offs cs' t') (hk : 0 < k)
    (h : WandInv orig k offered cs t) {d : Nat} (hd : d < uint32Max)
    (hpruned : Pruned t.threshold cs d) : ∀ e ∈ offs, e.2 ≠ d := by
  induction hreach generalizing offered with
  | refl => simp
  | @step cs cs' t t' out offs hstep _ ih =>
      have hmove := wandStep_some h.ascending hstep
      have hnext := h.step hk hmove
      have htheta := h.threshold_le hk hd hpruned out.offer
      obtain ⟨hpr, hlater⟩ := Pruned.step h.ascending hd htheta hpruned hmove
      intro e he
      rcases List.mem_append.mp he with he | he
      · have := hlater e (Option.mem_toList.mp he)
        omega
      · exact ih hnext hpr e he

/-! ## The condition -/

/-- In every state the loop passes through, the bounds of the cursors standing
at or before a document of the true top `k` that was not offered yet reach the
queue's threshold. -/
def NoPrunedWinner (srt : DocSort) (k : Nat) (cursors : List TermCursor) : Prop :=
  ∀ offs cs t, WandReach srt cursors { k := k, heap := [] } offs cs t →
    ∀ e ∈ bestK rankLe k (scoredDocs cursors), e ∉ offs → t.threshold ≤ boundUpTo cs e.2

/-- The whole run of the loop, with the invariant at its end. -/
theorem wandRun_spec (srt : DocSort) (hk : 0 < k) {cursors : List TermCursor}
    (hcs : ∀ c ∈ cursors, c.Ascending) (hpos : ∀ c ∈ cursors, c.pos = 0) :
    ∃ offs cs t, WandReach srt cursors { k := k, heap := [] } offs cs t ∧
      wandStep srt t.threshold cs = none ∧ WandInv cursors k offs.reverse cs t ∧
      scoringQueryWand srt k cursors = some ((bestK rankLe k offs.reverse).map toHit) := by
  obtain ⟨offs, cs, t, hloop, hreach, hdone⟩ :=
    @wandLoop_reach srt (workLeft cursors + 1) cursors { k := k, heap := [] }
      (Nat.lt_succ_self _)
  have hinv : WandInv cursors k offs.reverse cs t := by
    simpa using (WandInv.start hcs hpos k).run hreach hk
  refine ⟨offs, cs, t, hreach, hdone, hinv, ?_⟩
  rw [scoringQueryWand, if_neg (by omega), wandRun, hloop, Option.map_some, hinv.queue,
    drainSorted_queueOf]

/-- No document is offered twice. -/
theorem WandInv.offered_nodup (h : WandInv orig k offered cs t) : offered.Nodup :=
  List.Nodup.of_map _ h.nodup

/-- A document has one score, so an offer with its docid is the document. -/
theorem WandInv.mem_offered_of_docid (h : WandInv orig k offered cs t) {e : Entry}
    (he : e ∈ scoredDocs orig) (hdoc : e.2 ∈ offered.map Prod.snd) : e ∈ offered := by
  obtain ⟨e', he', heq⟩ := List.mem_map.mp hdoc
  have hscore : e'.1 = e.1 := by
    rw [(mem_scoredDocs.mp (h.exact e' he')).2, (mem_scoredDocs.mp he).2, heq]
  rwa [← Prod.ext hscore heq]

/-- In range, and so comparable with the cursors' positions. -/
theorem WandInv.docid_lt (h : WandInv orig k offered cs t) {e : Entry}
    (he : e ∈ scoredDocs orig) : e.2 < uint32Max := by
  obtain ⟨c, hc, p, hp, hpd⟩ := exists_posting_perm h.moved (mem_scoredDocs.mp he).1
  rw [← hpd]
  exact (h.ascending c hc).inRange p hp

/-- When the loop has broken, a document was offered or it is pruned. -/
theorem WandInv.offered_or_pruned (h : WandInv orig k offered cs t) {srt : DocSort}
    (hdone : wandStep srt t.threshold cs = none) {e : Entry} (he : e ∈ scoredDocs orig) :
    e ∈ offered ∨ Pruned t.threshold cs e.2 := by
  obtain ⟨c, hc, p, hp, hpd⟩ := exists_posting_perm h.moved (mem_scoredDocs.mp he).1
  rcases TermCursor.mem_passed_or_remaining hp with hp | hp
  · rcases h.accounted c hc p hp with hoff | hpr
    · exact Or.inl (h.mem_offered_of_docid he (by rwa [← hpd]))
    · right
      rwa [← hpd]
  · right
    have hlive := (h.ascending c hc).currentDoc_le_of_mem hp
    have hrange := h.docid_lt he
    rcases wandStep_none h.ascending hdone with hend | hall
    · have := hend c hc
      omega
    · exact hall e.2 hrange

/-- **WAND agrees with the exhaustive path exactly when no winner is pruned.** -/
theorem wand_eq_iff (srt : DocSort) (hk : 0 < k) {cursors : List TermCursor}
    (hcs : ∀ c ∈ cursors, c.Ascending) (hpos : ∀ c ∈ cursors, c.pos = 0) :
    scoringQueryWand srt k cursors = some (scoringQueryExhaustive k cursors) ↔
      NoPrunedWinner srt k cursors := by
  obtain ⟨offs, cs, t, hreach, hdone, hinv, hwand⟩ := wandRun_spec srt hk hcs hpos
  rw [hwand, scoringQueryExhaustive_eq hk, Option.some.injEq]
  constructor
  · intro heq offs1 cs1 t1 hreach1 e he hnot
    by_contra hlt
    have hpruned : Pruned t1.threshold cs1 e.2 := not_le.mp hlt
    have hinv1 : WandInv cursors k offs1.reverse cs1 t1 := by
      simpa using (WandInv.start hcs hpos k).run hreach1 hk
    obtain ⟨offs2, hreach2, rfl⟩ := hreach1.split hreach hdone
    have hbest : e ∈ bestK rankLe k (offs1 ++ offs2).reverse := by
      rw [List.map_injective_iff.mpr toHit_injective heq]
      exact he
    have hmem := List.mem_reverse.mp (mem_of_mem_bestK hbest)
    rcases List.mem_append.mp hmem with hmem | hmem
    · exact hnot hmem
    · exact hinv1.pruned_run hreach2 hk (hinv1.docid_lt (mem_of_mem_bestK he)) hpruned e hmem rfl
  · intro hwin
    refine congrArg (List.map toHit) ?_
    refine bestK_eq_of_subset (fun e he => hinv.exact e he) hinv.offered_nodup
      (nodup_scoredDocs cursors) ?_
    intro e he
    by_contra hnot
    have hreachable := hwin offs cs t hreach e he (by simpa using hnot)
    rcases hinv.offered_or_pruned hdone (mem_of_mem_bestK he) with hoff | hpr
    · exact hnot hoff
    · exact absurd hpr (not_lt.mpr hreachable)

/-! ## A condition on postings and windows -/

/-- No cursor has moved past document `d`. -/
def Ahead (cs : List TermCursor) (d : Nat) : Prop := ∀ c ∈ cs, ∀ p ∈ c.passed, p.docid ≠ d

/-- The documents that rank before `q`, scores summed over the cursors. -/
def rankingBefore (cursors : List TermCursor) (q : Entry) : List Entry :=
  (scoredDocs cursors).filter fun e => cmp e q

/-- The documents that all placed cursors have left behind and that score above `bound`. -/
def scoringAbove (cursors placed : List TermCursor) (bound : ℚ) : List Entry :=
  (scoredDocs cursors).filter fun e => (∀ c ∈ placed, e.2 < currentDoc c) ∧ bound < e.1

/-- Wherever the cursors are placed in their lists with a document `q` ahead of them: when
`k` documents behind them score above the window bounds of the cursors standing at or before
`q`, then `k` documents rank before `q`. -/
def BoundsReach (k : Nat) (cursors : List TermCursor) : Prop :=
  ∀ q ∈ scoredDocs cursors, ∀ placed : List TermCursor,
    (placed.map TermCursor.shape).Perm (cursors.map TermCursor.shape) → Ahead placed q.2 →
      k ≤ (scoringAbove cursors placed (boundUpTo placed q.2)).length →
        k ≤ (rankingBefore cursors q).length

/-- A document that `k` others rank before is not among the best `k`. -/
theorem notMem_bestK_of_rankingBefore {q : Entry} {cursors : List TermCursor}
    (h : k ≤ (rankingBefore cursors q).length) : q ∉ bestK rankLe k (scoredDocs cursors) := by
  refine notMem_bestK_of_better ((nodup_scoredDocs cursors).filter _) h
    (List.filter_sublist.subset) fun e he => ?_
  have hcmp := of_decide_eq_true (List.mem_filter.mp he).2
  exact not_not.mpr hcmp

/-- A winner still ahead of the cursors is not pruned. -/
theorem WandInv.not_pruned (h : WandInv orig k offered cs t) (hk : 0 < k)
    (hreach : BoundsReach k orig) {e : Entry} (he : e ∈ bestK rankLe k (scoredDocs orig))
    (hahead : Ahead cs e.2) : ¬ Pruned t.threshold cs e.2 := by
  intro hpruned
  have hmem := mem_of_mem_bestK he
  have hbound := boundUpTo_nonneg h.ascending (h.docid_lt hmem)
  rw [Pruned, h.queue] at hpruned
  have hfull : k ≤ offered.length := by
    by_contra hroom
    rw [threshold_queueOf_of_lt (Nat.lt_of_not_le hroom)] at hpruned
    linarith
  obtain ⟨worst, rest, -, hthr, hworst⟩ := threshold_queueOf_of_le hk hfull
  rw [hthr] at hpruned
  have hsub : bestK rankLe k offered ⊆ scoringAbove orig cs (boundUpTo cs e.2) := by
    intro b hb
    have hoff := mem_of_mem_bestK hb
    refine List.mem_filter.mpr ⟨h.exact b hoff, decide_eq_true ⟨h.behind b hoff, ?_⟩⟩
    exact lt_of_lt_of_le hpruned (hworst b hb)
  have hnodup : (bestK rankLe k offered).Nodup :=
    ((List.perm_insertionSort rankLe offered).nodup_iff.mpr h.offered_nodup).sublist
      (List.take_sublist _ _)
  have hle := (List.subperm_of_subset hnodup hsub).length_le
  rw [bestK_length, Nat.min_eq_left hfull] at hle
  exact notMem_bestK_of_rankingBefore (hreach e hmem cs h.moved hahead hle) he

/-- Winners are offered or still ahead of the cursors. -/
def WinnersKept (orig : List TermCursor) (k : Nat) (offered : List Entry)
    (cs : List TermCursor) : Prop :=
  ∀ e ∈ bestK rankLe k (scoredDocs orig), e ∈ offered ∨ Ahead cs e.2

/-- One iteration moves past no winner it does not offer. -/
theorem WandInv.winnersKept_step (h : WandInv orig k offered cs t) (hk : 0 < k)
    (hreach : BoundsReach k orig) {out : StepOut} (hmove : WandMove t.threshold cs out)
    (hkept : WinnersKept orig k offered cs) :
    WinnersKept orig k (out.offer.toList ++ offered) out.cursors := by
  have hnext := h.step hk hmove
  intro e he
  rcases hkept e he with hoff | hahead
  · exact .inl (List.mem_append_right _ hoff)
  · have hnot := h.not_pruned hk hreach he hahead
    cases hmove with
    | score sorted f perm live front stands reach =>
        by_cases hef : e.2 = f
        · left
          exact hnext.mem_offered_of_docid (mem_of_mem_bestK he) (by simp [hef])
        · right
          intro c hc p hp
          obtain ⟨c', hc', rfl⟩ := List.mem_map.mp hc
          rcases mem_passed_advanceAt live hp with hp | hpf
          · exact hahead c' (perm.mem_iff.mp hc') p hp
          · exact fun heq => hef (heq.symm.trans hpf)
    | skip c rest d perm lag live pruned reach =>
        right
        intro x hx p hp
        rcases List.mem_cons.mp hx with rfl | hx
        · rcases mem_passed_skipTo hp with hp | ⟨hlt, _⟩
          · exact hahead c (perm.mem_iff.mp (by simp)) p hp
          · intro heq
            have hpr := pruned p.docid hlt
            rw [Pruned, boundUpTo_perm perm, heq] at hpr
            exact hnot hpr
        · exact hahead x (perm.mem_iff.mp (by simp [hx])) p hp

theorem WandInv.winnersKept_run {srt : DocSort} {cs' : List TermCursor} {t' : TopK}
    {offs : List Entry} (hrun : WandReach srt cs t offs cs' t') (hk : 0 < k)
    (h : WandInv orig k offered cs t) (hreach : BoundsReach k orig)
    (hkept : WinnersKept orig k offered cs) :
    WinnersKept orig k (offs.reverse ++ offered) cs' := by
  induction hrun generalizing offered with
  | refl => simpa using hkept
  | @step cs cs' t t' out offs hstep _ ih =>
      have hmove := wandStep_some h.ascending hstep
      have hnext := ih (h.step hk hmove) (h.winnersKept_step hk hreach hmove hkept)
      have hlist : (out.offer.toList ++ offs).reverse ++ offered =
          offs.reverse ++ (out.offer.toList ++ offered) := by
        cases out.offer <;> simp
      rw [hlist]
      exact hnext

/-- **Bounds that reach far enough prune no winner**. -/
theorem noPrunedWinner_of_boundsReach (srt : DocSort) (hk : 0 < k) {cursors : List TermCursor}
    (hcs : ∀ c ∈ cursors, c.Ascending) (hpos : ∀ c ∈ cursors, c.pos = 0)
    (hreach : BoundsReach k cursors) : NoPrunedWinner srt k cursors := by
  intro offs cs t hrun e he hnot
  have hstart := WandInv.start hcs hpos k
  have hinv : WandInv cursors k offs.reverse cs t := by simpa using hstart.run hrun hk
  have hkept : WinnersKept cursors k offs.reverse cs := by
    have hfirst : WinnersKept cursors k [] cursors := by
      refine fun e _ => .inr fun c hc p hp => ?_
      rw [TermCursor.passed, hpos c hc] at hp
      simp at hp
    simpa using hstart.winnersKept_run hrun hk hreach hfirst
  rcases hkept e he with hoff | hahead
  · exact absurd (List.mem_reverse.mp hoff) hnot
  · exact not_lt.mp (hinv.not_pruned hk hreach he hahead)

/-! ## Bounds that never rise -/

/-- The window bounds of a cursor do not rise along its windows. -/
def TermCursor.NonIncreasing (c : TermCursor) : Prop :=
  c.windows.Pairwise fun v w => w.maxScore ≤ v.maxScore

/-- Along such windows an earlier docid has at least the bound of a later one. -/
theorem termBoundAt_antitone {c : TermCursor} (hmono : c.NonIncreasing) {d e : Nat}
    (hde : d ≤ e) {w : WindowBound} (hw : c.windows.find? (fun w => e ≤ w.lastDocid) = some w) :
    w.maxScore ≤ termBoundAt c d := by
  have hmem := List.mem_of_find?_eq_some hw
  have hle : e ≤ w.lastDocid := by simpa using List.find?_some hw
  rw [termBoundAt]
  cases hv : c.windows.find? (fun w => d ≤ w.lastDocid) with
  | none =>
      have := List.find?_eq_none.mp hv w hmem
      simp only [decide_eq_true_eq] at this
      omega
  | some v =>
      obtain ⟨_, pre, post, hsplit, hpre⟩ := List.find?_eq_some_iff_append.mp hv
      rw [hsplit] at hmem
      rcases List.mem_append.mp hmem with hin | hin
      · have := hpre w hin
        simp only [Bool.not_eq_true', decide_eq_false_iff_not] at this
        omega
      · have hord := hmono
        rw [TermCursor.NonIncreasing, hsplit] at hord
        rcases List.mem_cons.mp hin with rfl | hin
        · exact le_refl _
        · exact (List.pairwise_cons.mp (List.pairwise_append.mp hord).2.1).1 w hin

/-- Moving a cursor leaves its well-boundedness and its window order alone. -/
theorem wellBounded_of_moved {ds : List TermCursor}
    (hwb : ∀ c ∈ ds, c.WellBounded ∧ c.NonIncreasing)
    (hmoved : (cs.map TermCursor.shape).Perm (ds.map TermCursor.shape)) :
    ∀ c ∈ cs, c.WellBounded ∧ c.NonIncreasing := by
  intro c hc
  obtain ⟨c', hc', heq⟩ := List.mem_map.mp (hmoved.mem_iff.mp (List.mem_map_of_mem hc))
  obtain ⟨hpost, hwin, _⟩ := TermCursor.mk.inj heq
  obtain ⟨⟨h1, h2, h3, h4, h5⟩, h6⟩ := hwb c' hc'
  rw [hpost] at h1 h2 h3
  rw [hpost, hwin] at h5
  rw [hwin] at h4
  rw [TermCursor.NonIncreasing, hwin] at h6
  exact ⟨⟨h1, h2, h3, h4, h5⟩, h6⟩

/-- A document still ahead of every cursor that holds it scores at most the
bounds at or before it. -/
theorem fullScore_le_boundUpTo (hwb : ∀ c ∈ cs, c.WellBounded ∧ c.NonIncreasing) {d : Nat}
    (hd : d < uint32Max) (hahead : ∀ c ∈ cs, ∀ p ∈ c.passed, p.docid ≠ d) :
    fullScore cs d ≤ boundUpTo cs d := by
  induction cs with
  | nil => exact le_refl _
  | cons c cs ih =>
      have htail := ih (fun x hx => hwb x (by simp [hx])) fun x hx => hahead x (by simp [hx])
      obtain ⟨hc, hmono⟩ := hwb c (by simp)
      have hhead : postingScore c.postings d ≤
          if currentDoc c ≤ d then termBoundAt c (currentDoc c) else 0 := by
        by_cases hocc : ∃ p ∈ c.postings, p.docid = d
        · obtain ⟨p, hp, rfl⟩ := hocc
          have hrem : p ∈ c.remaining :=
            (TermCursor.mem_passed_or_remaining hp).resolve_left fun h =>
              hahead c (by simp) p h rfl
          have hle := hc.toAscending.currentDoc_le_of_mem hrem
          obtain ⟨w, hw, hscore⟩ := hc.covered p hp
          rw [if_pos hle, postingScore_of_mem hc.ascending hp]
          exact hscore.trans (termBoundAt_antitone hmono hle hw)
        · have hzero : postingScore c.postings d = 0 :=
            postingScore_eq_zero fun p hp hpd => hocc ⟨p, hp, hpd⟩
          rw [hzero]
          split
          · exact hc.toAscending.bound_nonneg (by omega)
          · exact le_refl _
      have hcons : fullScore (c :: cs) d = postingScore c.postings d + fullScore cs d := rfl
      rw [boundUpTo_cons, hcons]
      linarith

/-- Bounds that never rise reach far enough: a document ahead scores no more than the
bounds at or before it. -/
theorem boundsReach_of_nonIncreasing (k : Nat) {cursors : List TermCursor}
    (hwb : ∀ c ∈ cursors, c.WellBounded ∧ c.NonIncreasing) : BoundsReach k cursors := by
  intro q hq placed hmoved hahead hlen
  have hplaced := wellBounded_of_moved hwb hmoved
  obtain ⟨c, hc, p, hp, hpd⟩ := exists_posting_perm hmoved (mem_scoredDocs.mp hq).1
  have hrange : q.2 < uint32Max := hpd ▸ (hplaced c hc).1.inRange p hp
  have hscore : q.1 ≤ boundUpTo placed q.2 := by
    rw [(mem_scoredDocs.mp hq).2, ← fullScore_perm hmoved]
    exact fullScore_le_boundUpTo hplaced hrange hahead
  refine hlen.trans (List.monotone_filter_right _ fun e he => ?_).length_le
  have habove := (of_decide_eq_true he).2
  exact decide_eq_true ((cmp_iff e q).mpr (.inl (lt_of_le_of_lt hscore habove)))

/-- Bounds that never rise prune no winner. -/
theorem noPrunedWinner_of_nonIncreasing (srt : DocSort) (hk : 0 < k)
    {cursors : List TermCursor} (hwb : ∀ c ∈ cursors, c.WellBounded ∧ c.NonIncreasing)
    (hpos : ∀ c ∈ cursors, c.pos = 0) : NoPrunedWinner srt k cursors :=
  noPrunedWinner_of_boundsReach srt hk (fun c hc => (hwb c hc).1.toAscending) hpos
    (boundsReach_of_nonIncreasing k hwb)

/-! ## A single cursor -/

/-- A posting as the queue takes it. -/
def TermPosting.entry (p : TermPosting) : Entry := (p.score, p.docid)

/-- A run, and one step more. -/
theorem WandReach.snoc {srt : DocSort} {cs' : List TermCursor} {t' : TopK} {offs : List Entry}
    {out : StepOut} (h : WandReach srt cs t offs cs' t')
    (hstep : wandStep srt t'.threshold cs' = some out) :
    WandReach srt cs t (offs ++ out.offer.toList) out.cursors (t'.after out.offer) := by
  induction h with
  | refl cs t =>
      have hlast := WandReach.step hstep (WandReach.refl out.cursors (t.after out.offer))
      simpa using hlast
  | @step cs cs' t t' first offs hfirst _ ih =>
      rw [List.append_assoc]
      exact WandReach.step hfirst (ih hstep)

/-- Two postings in windows of falling bounds. -/
def fallingCursor : TermCursor where
  postings := [⟨3, 7⟩, ⟨9, 2⟩]
  windows := [⟨3, 3, 7, true⟩, ⟨4, 9, 2, true⟩]

/-- One term over three one-document windows with bounds `10`, `5`, `20`. -/
def risingCursor : TermCursor where
  postings := [⟨0, 10⟩, ⟨1, 5⟩, ⟨2, 20⟩]
  windows := [⟨0, 0, 10, true⟩, ⟨1, 1, 5, true⟩, ⟨2, 2, 20, true⟩]

/-- What an iteration offers is beyond everything offered before, and no cursor has moved
past it. -/
theorem WandInv.offer_ahead (h : WandInv orig k offered cs t) {out : StepOut}
    (hmove : WandMove t.threshold cs out) {e : Entry} (he : e ∈ out.offer) :
    (∀ e' ∈ offered, e'.2 < e.2) ∧ ∀ c ∈ cs, ∀ p ∈ c.passed, p.docid ≠ e.2 := by
  cases hmove with
  | score sorted f perm live front stands reach =>
      have heq := Option.some.inj he
      subst heq
      obtain ⟨c, hc, hcur⟩ := stands
      have hstands : ∃ c ∈ cs, currentDoc c = f := ⟨c, perm.mem_iff.mp hc, hcur⟩
      have hreach : t.threshold ≤ boundUpTo cs f := by rwa [← boundUpTo_perm perm]
      constructor
      · intro e' he'
        have hlt := h.behind e' he' c (perm.mem_iff.mp hc)
        rwa [hcur] at hlt
      · exact fun c hc p hp => h.notMem_passed hstands hreach hc hp
  | skip => cases he

/-- The offers of a run ascend, beyond those before it. -/
theorem WandInv.offers_ascend {srt : DocSort} {cs' : List TermCursor} {t' : TopK}
    {offs : List Entry} (hreach : WandReach srt cs t offs cs' t') (hk : 0 < k)
    (h : WandInv orig k offered cs t) :
    (offs.map Prod.snd).Pairwise (· < ·) ∧ ∀ e ∈ offered, ∀ e' ∈ offs, e.2 < e'.2 := by
  induction hreach generalizing offered with
  | refl => exact ⟨List.Pairwise.nil, fun _ _ _ he' => by cases he'⟩
  | @step cs cs' t t' out offs hstep _ ih =>
      have hmove := wandStep_some h.ascending hstep
      obtain ⟨hrest, hlater⟩ := ih (h.step hk hmove)
      cases hoffer : out.offer with
      | none =>
          rw [hoffer] at hlater
          exact ⟨hrest, fun e he => hlater e he⟩
      | some x =>
          have hahead := (h.offer_ahead hmove hoffer).1
          rw [hoffer] at hlater
          have hnew : ∀ e' ∈ offs, x.2 < e'.2 := hlater x (by simp)
          refine ⟨?_, ?_⟩
          · show ((x :: offs).map Prod.snd).Pairwise (· < ·)
            rw [List.map_cons, List.pairwise_cons]
            refine ⟨?_, hrest⟩
            intro d hd
            obtain ⟨e', he', rfl⟩ := List.mem_map.mp hd
            exact hnew e' he'
          · intro e he e' he'
            rcases List.mem_cons.mp (show e' ∈ x :: offs from he') with rfl | he'
            · exact hahead e he
            · exact hlater e (by simp [he]) e' he'

/-- A cursor as the loop takes it: postings that ascend below the sentinel, and windows
with any non-negative bounds. -/
structure TermCursor.Fresh (c : TermCursor) : Prop where
  start : c.pos = 0
  ascending : c.postings.Pairwise (fun p q => p.docid < q.docid)
  inRange : ∀ p ∈ c.postings, p.docid < uint32Max
  bounds : ∀ w ∈ c.windows, 0 ≤ w.maxScore

theorem TermCursor.Fresh.toAscending {c : TermCursor} (hc : c.Fresh) : c.Ascending := by
  refine ⟨hc.ascending, hc.inRange, fun p _ => ?_⟩
  unfold termBoundAt
  split
  next w hw => exact hc.bounds w (List.mem_of_find?_eq_some hw)
  next => exact le_refl _

/-- **The offers are exact.**  Whatever the bounds are worth, the loop ends; the docids
it offers ascend, each with its full score and before any cursor moved past it; and the
result is the best of the offers. -/
theorem wand_offers_exact (srt : DocSort) (k : Nat) (hk : 0 < k) (cursors : List TermCursor)
    (hcs : ∀ c ∈ cursors, c.Fresh) :
    ∃ offs t, wandRun srt k cursors = some (offs, t) ∧
      (offs.map Prod.snd).Pairwise (· < ·) ∧
      (∀ e ∈ offs, e.1 = fullScore cursors e.2) ∧
      (∀ offs' cs' t' out e, WandReach srt cursors { k := k, heap := [] } offs' cs' t' →
        wandStep srt t'.threshold cs' = some out → e ∈ out.offer →
          ∀ c ∈ cs', ∀ p ∈ c.passed, p.docid ≠ e.2) ∧
      scoringQueryWand srt k cursors = some ((sortHits (offs.map toHit)).take k) := by
  have hasc : ∀ c ∈ cursors, c.Ascending := fun c hc => (hcs c hc).toAscending
  have hstart := WandInv.start hasc (fun c hc => (hcs c hc).start) k
  obtain ⟨offs, cs, t, hloop, hreach, hdone⟩ :=
    @wandLoop_reach srt (workLeft cursors + 1) cursors { k := k, heap := [] }
      (Nat.lt_succ_self _)
  have hinv : WandInv cursors k offs.reverse cs t := by simpa using hstart.run hreach hk
  refine ⟨offs, t, hloop, (hstart.offers_ascend hreach hk).1, ?_, ?_, ?_⟩
  · intro e he
    exact (mem_scoredDocs.mp (hinv.exact e (List.mem_reverse.mpr he))).2
  · intro offs' cs' t' out e hreach' hstep he
    have hinv' : WandInv cursors k offs'.reverse cs' t' := by simpa using hstart.run hreach' hk
    exact (hinv'.offer_ahead (wandStep_some hinv'.ascending hstep) he).2
  · rw [scoringQueryWand, if_neg (by omega), wandRun, hloop, Option.map_some, hinv.queue,
      drainSorted_queueOf, sortHits_map_toHit, ← List.map_take,
      bestK_perm (List.reverse_perm offs)]
    rfl

theorem wand_offers_exact_rising : ∃ offs t,
    wandRun DocSort.stable 1 [risingCursor, fallingCursor] = some (offs, t) ∧
      (offs.map Prod.snd).Pairwise (· < ·) ∧
      ∀ e ∈ offs, e.1 = fullScore [risingCursor, fallingCursor] e.2 := by
  have hfresh : ∀ c ∈ [risingCursor, fallingCursor], c.Fresh := by
    intro c hc
    simp only [List.mem_cons, List.not_mem_nil, or_false] at hc
    rcases hc with rfl | rfl <;>
      exact ⟨rfl, by decide, by decide, by decide⟩
  obtain ⟨offs, t, hrun, hasc, hexact, _⟩ := wand_offers_exact DocSort.stable 1 Nat.one_pos
    [risingCursor, fallingCursor] hfresh
  exact ⟨offs, t, hrun, hasc, hexact⟩

end Snii.Query.ScoringQuery
