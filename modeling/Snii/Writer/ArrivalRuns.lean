import Snii.Writer.SpillTransparent

/-!
# Runs that lose no token

What a call appends depends on the vocabulary alone (`Arrival.token`), so a feed has
its tokens before any budget is chosen (`arrivalTokens`).  With every spill succeeding a
run of the calls returns, over a borrowed or an owned vocabulary, and holds exactly
those tokens, in whatever segments the spills cut them into (`runAdds_running`); the
drain of the run lays out their groupings (`drain_lays`).
-/

namespace Snii.Writer.SpimiTermBuffer

open Snii.Lib.ByteReader Snii.Lib.Grouping Snii.Common Snii.Writer.CompactPostingPool
  Snii.Writer.SpillRunCodec

/-! ## Feeds -/

/-- An `add_token` call without what the surroundings answer. -/
inductive Arrival where
  | byId (termId docid pos : Nat)
  | byString (term : Bytes) (docid pos : Nat)

namespace Arrival

def call (env : TokenEnv) : Arrival → AddCall
  | .byId termId docid pos => .byId termId docid pos env
  | .byString term docid pos => .byString term docid pos env

/-- The token appended over a vocabulary, and the vocabulary after it; `none` is a
refused call. -/
def token (owned : Bool) (vocab : List Bytes) : Arrival → Option (Token × List Bytes)
  | .byId termId docid pos =>
      if termId ≥ vocab.length then none else some (⟨termId, docid, pos⟩, vocab)
  | .byString term docid pos =>
      if owned = false then none
      else some (⟨vocab.idxOf term, docid, pos⟩,
        if vocab.contains term then vocab else vocab ++ [term])

end Arrival

/-- The tokens of a feed and the vocabulary after it, when no call is refused. -/
def arrivalTokens (owned : Bool) : List Bytes → List Arrival → Option (List Token × List Bytes)
  | vocab, [] => some ([], vocab)
  | vocab, a :: rest =>
      (a.token owned vocab).bind fun r =>
        (arrivalTokens owned r.2 rest).map fun rest => (r.1 :: rest.1, rest.2)

/-- The calls of a feed, each with the surroundings' answer to it. -/
def callsOf (answers : Nat → TokenEnv) (arrivals : List Arrival) : List AddCall :=
  arrivals.mapIdx fun i a => a.call (answers i)

/-! ## Interning -/

variable {b b' : Buffer} {segs : List (List Token)} {cur : List Token}

/-- Strings added behind it do not change the order of a vocabulary's ids. -/
theorem dictIds_append {vocab : List Bytes} (more : List Bytes) {toks : List Token}
    (hin : ∀ t ∈ toks, t.termId < vocab.length) :
    dictIds (vocab ++ more) toks = dictIds vocab toks := by
  have hget : ∀ id < vocab.length, (vocab ++ more).getD id [] = vocab.getD id [] := by
    intro id hid
    rw [List.getD_eq_getElem?_getD, List.getD_eq_getElem?_getD, List.getElem?_append_left hid]
  have hids : ∀ id ∈ (toks.map Token.termId).dedup, id < vocab.length := by
    intro id hid
    obtain ⟨t, ht, rfl⟩ := List.mem_map.mp (List.mem_dedup.mp hid)
    exact hin t ht
  unfold dictIds
  have hsort := List.map_insertionSort (r := dictLe (vocab ++ more)) (s := dictLe vocab) id
    (toks.map Token.termId).dedup fun a ha b hb => by
      rw [dictLe, dictLe, hget a (hids a ha), hget b (hids b hb)]
      rfl
  simpa using hsort

theorem runFile_append {vocab : List Bytes} (more : List Bytes) (hasPositions : Bool)
    {seg : List Token} (hin : ∀ t ∈ seg, t.termId < vocab.length) :
    runFile (vocab ++ more) hasPositions seg = runFile vocab hasPositions seg := by
  rw [runFile, runFile, dictIds_append more hin]

/-- The vocabulary lookup of a call changes the vocabulary and its slots alone. -/
theorem AddCall.interned_same (c : AddCall) (b : Buffer) : ∃ more slots,
    c.interned b = { b with vocab := b.vocab ++ more, slotOf := slots } := by
  cases c with
  | byId termId docid pos env => exact ⟨[], b.slotOf, by rw [AddCall.interned, List.append_nil]⟩
  | byString term docid pos env =>
      rw [AddCall.interned]
      by_cases hmem : b.vocab.contains term = true
      · rw [if_pos hmem]
        exact ⟨[], b.slotOf, by rw [List.append_nil]⟩
      · rw [if_neg hmem]
        exact ⟨[term], b.slotOf ++ [0], rfl⟩

theorem Running.interned (h : Running b segs cur) (c : AddCall)
    (hin : ∀ t ∈ segs.flatten, t.termId < b.vocab.length) : Running (c.interned b) segs cur := by
  obtain ⟨more, slots, heq⟩ := c.interned_same b
  have hres := h.inv.resident.interned c
  have hruns : (c.interned b).runs =
      segs.map (runFile (c.interned b).vocab (c.interned b).hasPositions) := by
    rw [heq]
    refine h.inv.runs.trans (List.map_congr_left fun seg hseg => ?_)
    exact (runFile_append more b.hasPositions
      fun t ht => hin t (List.mem_flatten.mpr ⟨seg, hseg, ht⟩)).symm
  refine ⟨⟨hres.slots, hres.touched, hres.wf, hres.chains, hruns⟩, ?_, ?_, ?_, h.small⟩
  · rw [heq]
    exact h.status
  · rw [heq]
    exact h.arena
  · rw [heq]
    exact h.drained

theorem AddCall.interned_nodup {c : AddCall} (h : b.vocab.Nodup) : (c.interned b).vocab.Nodup := by
  cases c with
  | byId termId docid pos env => exact h
  | byString term docid pos env =>
      rw [AddCall.interned]
      by_cases hmem : b.vocab.contains term = true
      · rw [if_pos hmem]
        exact h
      · rw [if_neg hmem]
        apply List.Nodup.append h (List.nodup_singleton term)
        intro t ht hsingle
        rw [List.mem_singleton.mp hsingle] at ht
        exact hmem (List.contains_iff_mem.mpr ht)

/-! ## Runs -/

/-- A buffer in the middle of a feed, with the tokens it was given. -/
structure Fed (b : Buffer) (toks : List Token) : Prop where
  vocab : b.vocab.Nodup
  inVocab : ∀ t ∈ toks, t.termId < b.vocab.length
  valid : ∀ t ∈ toks, t.Valid
  held : ∃ segs cur, Running b segs cur ∧ (segs ++ [cur]).flatten = toks

theorem Constructed.fed (h : Constructed b) (hvocab : b.vocab.Nodup) : Fed b [] :=
  ⟨hvocab, by simp, by simp, [], [], h.running, rfl⟩

/-- What a call appends is settled by the vocabulary. -/
theorem Arrival.token_call {a : Arrival} {t : Token} {vocab : List Bytes} (env : TokenEnv)
    (hsize : b.slotOf.length = b.vocab.length)
    (htok : a.token b.ownedVocab b.vocab = some (t, vocab)) :
    (a.call env).token b = some t ∧ ((a.call env).interned b).vocab = vocab := by
  cases a with
  | byId termId docid pos =>
      rw [Arrival.token, Option.ite_none_left_eq_some, Option.some.injEq, Prod.mk.injEq] at htok
      obtain ⟨hid, rfl, rfl⟩ := htok
      rw [← hsize] at hid
      exact ⟨if_neg hid, rfl⟩
  | byString term docid pos =>
      rw [Arrival.token, Option.ite_none_left_eq_some, Option.some.injEq, Prod.mk.injEq] at htok
      obtain ⟨howned, rfl, rfl⟩ := htok
      refine ⟨if_neg howned, ?_⟩
      show (AddCall.interned b (.byString term docid pos env)).vocab = _
      rw [AddCall.interned]
      split <;> rfl

/-- **One call** is taken, whatever the budget answers. -/
theorem Fed.step {toks : List Token} {a : Arrival} {t : Token} {vocab : List Bytes}
    {env : TokenEnv} (h : Fed b toks) (htok : a.token b.ownedVocab b.vocab = some (t, vocab))
    (hvalid : t.Valid) (henv : Good env.spill) :
    ∃ b', (a.call env).run b = some b' ∧ Fed b' (toks ++ [t]) ∧ b'.vocab = vocab ∧
      b'.ownedVocab = b.ownedVocab ∧ b'.hasPositions = b.hasPositions := by
  obtain ⟨segs, cur, hrun, hflat⟩ := h.held
  obtain ⟨hcall, hvocab⟩ := a.token_call env hrun.inv.slots.size htok
  obtain ⟨more, slots, hsame⟩ := (a.call env).interned_same b
  have hmem : ∀ s ∈ segs.flatten ++ cur, s ∈ toks := by
    intro s hs
    rw [← hflat]
    simpa using hs
  have hrun' := hrun.interned (a.call env) fun s hs =>
    h.inVocab s (hmem s (List.mem_append_left _ hs))
  have hid := AddCall.token_lt hrun.inv.resident hcall
  have hcur : ∀ s ∈ cur ++ [t], s.Valid := by
    intro s hs
    rcases List.mem_append.mp hs with hs | hs
    · exact h.valid s (hmem s (List.mem_append_right _ hs))
    · rw [List.mem_singleton.mp hs]
      exact hvalid
  have hgood : Good (a.call env).env.spill := by
    cases a <;> exact henv
  obtain ⟨b1, b', happ, hspill, hcfg, hgate⟩ :=
    accumulate_inv hrun' (AddCall.interned_nodup h.vocab) hid hcur hgood
  have hlen : b.vocab.length ≤ ((a.call env).interned b).vocab.length := by
    rw [hsame]
    simp
  refine ⟨b', ?_, ⟨?_, ?_, ?_, ?_⟩, hcfg.vocab.trans hvocab, ?_, ?_⟩
  · rw [AddCall.run_of_token hcall, accumulate, happ, Option.map_some, hspill]
  · rw [hcfg.vocab]
    exact AddCall.interned_nodup h.vocab
  · intro s hs
    rw [hcfg.vocab]
    rcases List.mem_append.mp hs with hs | hs
    · exact Nat.lt_of_lt_of_le (h.inVocab s hs) hlen
    · rw [List.mem_singleton.mp hs]
      exact hid
  · intro s hs
    rcases List.mem_append.mp hs with hs | hs
    · exact h.valid s hs
    · rw [List.mem_singleton.mp hs]
      exact hvalid
  · split at hgate
    · exact ⟨_, _, hgate, by rw [← hflat]; simp⟩
    · exact ⟨_, _, hgate, by rw [← hflat]; simp⟩
  · rw [hcfg.ownedVocab, hsame]
  · rw [hcfg.hasPositions, hsame]

/-- **Any run** holds the tokens of its feed. -/
theorem runAdds_fed {arrivals : List Arrival} {answers : Nat → TokenEnv} {toks more : List Token}
    {vocab : List Bytes} (h : Fed b toks)
    (hmore : arrivalTokens b.ownedVocab b.vocab arrivals = some (more, vocab))
    (hvalid : ∀ t ∈ more, t.Valid) (hgood : ∀ i, Good (answers i).spill) :
    ∃ b', runAdds b (callsOf answers arrivals) = some b' ∧ Fed b' (toks ++ more) ∧
      b'.vocab = vocab ∧ b'.hasPositions = b.hasPositions := by
  induction arrivals generalizing b answers toks more with
  | nil =>
      rw [arrivalTokens, Option.some.injEq, Prod.mk.injEq] at hmore
      obtain ⟨rfl, rfl⟩ := hmore
      exact ⟨b, rfl, by rwa [List.append_nil], rfl, rfl⟩
  | cons a rest ih =>
      rw [arrivalTokens, Option.bind_eq_some_iff] at hmore
      obtain ⟨⟨t, v⟩, htok, hrest⟩ := hmore
      obtain ⟨⟨later, v'⟩, hlater, heq⟩ := Option.map_eq_some_iff.mp hrest
      rw [Prod.mk.injEq] at heq
      obtain ⟨rfl, rfl⟩ := heq
      obtain ⟨b1, hstep, hfed, hvocab, howned, hpos⟩ :=
        h.step htok (hvalid t List.mem_cons_self) (hgood 0)
      rw [← hvocab, ← howned] at hlater
      obtain ⟨b', hrun, hfed', hvocab', hpos'⟩ := @ih b1 (fun i => answers (i + 1)) _ _ hfed hlater
        (fun s hs => hvalid s (List.mem_cons_of_mem t hs)) fun i => hgood (i + 1)
      refine ⟨b', ?_, by rwa [List.append_assoc] at hfed', hvocab', hpos'.trans hpos⟩
      rw [callsOf, List.mapIdx_cons, runAdds, hstep, Option.bind_some]
      exact hrun

/-- **The drain** of a run lays out the groupings of the feed's tokens. -/
theorem Fed.forEachTermSorted {toks : List Token} {env : DrainEnv}
    {plan : TermPostings → List Nat} (h : Fed b toks) (henv : Good env.spill)
    (htotal : toks.length < 2 ^ 64) (hord : InOrder toks) (hplan : Restrained plan) :
    ∃ out b', forEachTermSorted env plan b = some (.ok (), out, b') ∧
      LaysAll plan true b.vocab b.hasPositions toks out := by
  obtain ⟨segs, cur, hrun, hflat⟩ := h.held
  have hcount : ∀ id, (toksOf toks id).length < 2 ^ 64 := by
    intro id
    rw [toksOf, List.length_map]
    exact Nat.lt_of_le_of_lt (List.length_filter_le _ _) htotal
  have hsegs : SegsOk b.vocab (segs ++ [cur]) :=
    ⟨hflat ▸ h.inVocab, hflat ▸ h.valid, hrun.small_concat, hflat ▸ hcount⟩
  obtain ⟨out, b', hdrain, hlays⟩ := forEachTermSorted_lays henv hrun h.vocab hsegs hplan
  refine ⟨out, b', hdrain, ?_⟩
  unfold LaysSegs at hlays
  unfold LaysAll
  rw [hflat] at hlays
  refine hlays.imp fun e id he => ?_
  rwa [segmentGroups_eq_group (by rw [hflat]; exact hord id), hflat] at he

end Snii.Writer.SpimiTermBuffer
