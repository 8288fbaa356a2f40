import Snii.Writer.ArrivalRuns
import Snii.Writer.BudgetFree
import Snii.Writer.PostingTiling

/-!
# Containers without the budget

A feed of `add_token` calls becomes an index under a budget: the spill threshold or the
reporter's answers place the spills, and the reporter's answers to the dictionary buffer
place its temp file.  Any two budgets drain the same postings (`Lays.sameTerm`), so the
two sessions report the same and leave the same file (`container_eq_of_budgets`).
-/

namespace Snii.Writer.SpimiTermBuffer

open Snii.Lib.ByteReader Snii.Lib.Grouping Snii.Common
open Snii.Writer.SpillRunCodec Snii.Writer.LogicalIndexWriter

/-! ## Terms of two drains -/

/-- The writer never asks the pump for more positions than the term announced. -/
theorem restrained_pumpCalls (hasPrx : Bool) : Restrained (pumpCalls hasPrx) := by
  intro tp hs
  unfold pumpCalls
  split
  · rename_i hprx
    cases hvalid : validateTerm hasPrx tp with
    | error e => exact Nat.zero_le _
    | ok u =>
        obtain ⟨hlen, hsum⟩ := of_validateTerm hvalid
        have hannounced : announcedPositions tp = tp.posTotal := if_pos hs
        simp only [sum_splitWindows hlen, hsum hprx.1, hannounced]
        exact le_rfl
  · exact Nat.zero_le _

section Terms

variable {hasPrx hasPositions : Bool} {term : Bytes} {g : List (Nat × List Nat)} {e e' : Emitted}

theorem Lays.announced_eq {plan : TermPostings → List Nat}
    (h : Lays plan true e hasPositions term g) :
    announcedPositions e.postings = (if hasPositions then g.flatMap Prod.snd else []).length := by
  unfold announcedPositions
  cases hs : e.postings.streamed with
  | false => simp [h.flat, hs]
  | true =>
      obtain ⟨-, hpos, -, htotal⟩ := h.streamed hs
      rw [if_pos rfl, if_pos hpos, htotal]

/-- An accepted windowed term delivers all its positions. -/
theorem Lays.accepted_positions (h : Lays (pumpCalls hasPrx) true e hasPositions term g)
    (hprx : hasPrx = true) (hvalid : validateTerm hasPrx e.postings = .ok ())
    (hdf : kSlimDfThreshold ≤ (entryStats e.postings).df) :
    e.positions = if hasPositions then g.flatMap Prod.snd else [] := by
  unfold Emitted.positions
  cases hs : e.postings.streamed with
  | false => simp [h.flat, hs]
  | true =>
      obtain ⟨-, hpos, -, htotal⟩ := h.streamed hs
      obtain ⟨hlen, hsum⟩ := of_validateTerm hvalid
      have hannounced : announcedPositions e.postings = e.postings.posTotal := if_pos hs
      have hcalls : (pumpCalls hasPrx e.postings).sum = (g.flatMap Prod.snd).length := by
        unfold pumpCalls
        rw [if_pos ⟨hprx, hdf⟩, hvalid]
        simp only [sum_splitWindows hlen, hsum hprx, hannounced, htotal]
      rw [if_pos rfl, if_pos hpos, h.pulled hs, hcalls, List.take_length]

/-- A slim entry's flat buffer does not depend on how the term was drained. -/
theorem Lays.slim_flat {plan : TermPostings → List Nat}
    (h : Lays plan true e hasPositions term g) (hdf : g.length % 2 ^ 32 < kSlimDfThreshold) :
    e.postings.positionsFlat =
      if g.length < 2 ^ 32 ∧ hasPositions = true then g.flatMap Prod.snd else [] := by
  rw [h.flat]
  by_cases hsmall : g.length < 2 ^ 32
  · rw [Nat.mod_eq_of_lt hsmall] at hdf
    have hs : e.postings.streamed = false := by
      by_contra hs
      have hwide := (h.streamed (by simpa using hs)).2.2.1
      exact Nat.not_lt.mpr hwide hdf
    simp only [hs, hsmall, true_and]
  · have hnone : ¬ (e.postings.streamed = false ∧ hasPositions = true) := by
      rintro ⟨hs, hpos⟩
      rw [h.wide rfl hpos (Nat.not_lt.mp hsmall)] at hs
      cases hs
    rw [if_neg hnone, if_neg fun hboth => hsmall hboth.1]

/-- **Two drains** of one list of groups deliver the same postings. -/
theorem Lays.sameTerm (h : Lays (pumpCalls hasPrx) true e hasPositions term g)
    (h' : Lays (pumpCalls hasPrx) true e' hasPositions term g) : SameTerm hasPrx e e' := by
  have hdocids : e.postings.docids = e'.postings.docids := h.docids.trans h'.docids.symm
  have hfreqs : e.postings.freqs = e'.postings.freqs := h.freqs.trans h'.freqs.symm
  have hcount : announcedPositions e.postings = announcedPositions e'.postings :=
    h.announced_eq.trans h'.announced_eq.symm
  have hvalid : validateTerm hasPrx e'.postings = validateTerm hasPrx e.postings := by
    unfold announcedPositions at hcount
    rw [validateTerm, validateTerm, hdocids, hfreqs, hcount]
  refine ⟨h.term.trans h'.term.symm, hdocids, hfreqs, hcount, fun hprx hok hdf => ?_,
    fun hdf => ?_⟩
  · have hdf' : kSlimDfThreshold ≤ (entryStats e'.postings).df := by
      rw [entryStats, ← hdocids]
      exact hdf
    rw [h.accepted_positions hprx hok hdf,
      h'.accepted_positions hprx (hvalid.trans hok) hdf']
  · have hlen : g.length % 2 ^ 32 < kSlimDfThreshold := by
      rw [entryStats, h.docids, List.length_map] at hdf
      exact hdf
    rw [h.slim_flat hlen, h'.slim_flat hlen]

theorem LaysAll.sameTerms {vocab : List Bytes} {toks : List Token} {out out' : List Emitted}
    (h : LaysAll (pumpCalls hasPrx) true vocab hasPositions toks out)
    (h' : LaysAll (pumpCalls hasPrx) true vocab hasPositions toks out') :
    List.Forall₂ (SameTerm hasPrx) out out' := by
  unfold LaysAll at h h'
  generalize dictIds vocab toks = ids at h h'
  induction h generalizing out' with
  | nil =>
      cases h'
      exact .nil
  | cons he _ ih =>
      cases h' with
      | cons he' hrest => exact .cons (he.sameTerm he') (ih hrest)

end Terms

end Snii.Writer.SpimiTermBuffer

namespace Snii.Writer.CompoundWriter

open Snii.Lib.ByteReader Snii.Common
open Snii.Writer.SpillRunCodec Snii.Writer.LogicalIndexWriter
open Snii.Writer.SpimiTermBuffer hiding AddCall

/-! ## Feeds under a budget -/

/-- A vocabulary borrowed from the caller, or interned string by string. -/
inductive Vocabulary where
  | borrowed (strings : List Bytes)
  | owned

namespace Vocabulary

def isOwned : Vocabulary → Bool
  | .borrowed _ => false
  | .owned => true

/-- The strings that have an id before the feed. -/
def strings : Vocabulary → List Bytes
  | .borrowed strings => strings
  | .owned => []

end Vocabulary

/-- An index and the feed it is built from; the source in `input` is left open. -/
structure IndexFeed where
  vocabulary : Vocabulary
  hasPositions : Bool
  arrivals : List Arrival
  input : SniiIndexInput

/-- What the memory budget settles: when `SpimiTermBuffer` spills, what the drain meets,
and when the dictionary buffer spills. -/
structure Budget where
  spillThresholdBytes : Nat
  hasReporter : Bool
  answers : Nat → TokenEnv
  drain : DrainEnv
  overCap : Nat → Bool

/-- Temp files can be created and return what was written. -/
structure Budget.Good (β : Budget) : Prop where
  answers : ∀ i, SpimiTermBuffer.Good (β.answers i).spill
  drain : SpimiTermBuffer.Good β.drain.spill

namespace IndexFeed

def buffer (f : IndexFeed) (β : Budget) : Buffer :=
  match f.vocabulary with
  | .borrowed strings =>
      Buffer.borrowed strings f.hasPositions β.spillThresholdBytes β.hasReporter
  | .owned => Buffer.interning f.hasPositions β.spillThresholdBytes β.hasReporter

/-- The `add_logical_index` call whose terms are drained from the buffer. -/
def addCall (f : IndexFeed) (β : Budget) : Option AddCall :=
  (runAdds (f.buffer β) (callsOf β.answers f.arrivals)).bind fun b =>
    (forEachTermSorted β.drain (pumpCalls f.input.hasPrx) b).map fun r =>
      { overCap := β.overCap, input := { f.input with source := .drained r.1 r.2.1 } }

/-- No call is refused, the fields fit their types, and the docids of a term do not
descend. -/
structure Accepted (f : IndexFeed) (toks : List Token) : Prop where
  distinct : f.vocabulary.strings.Nodup
  tokens : ∃ vocab,
    arrivalTokens f.vocabulary.isOwned f.vocabulary.strings f.arrivals = some (toks, vocab)
  valid : ∀ t ∈ toks, t.Valid
  inOrder : InOrder toks
  count : toks.length < 2 ^ 64

end IndexFeed


/-! ## Two budgets -/

namespace IndexFeed

variable {f : IndexFeed} {toks : List Token} {β β' : Budget}

theorem constructed_buffer (f : IndexFeed) (β : Budget) : Constructed (f.buffer β) := by
  unfold buffer
  cases f.vocabulary with
  | borrowed strings => exact .borrowed _ _ _ _
  | owned => exact .interning _ _ _

/-- A buffer has the feed's settings, whatever the budget. -/
theorem buffer_config (f : IndexFeed) (β : Budget) :
    (f.buffer β).vocab = f.vocabulary.strings ∧
      (f.buffer β).ownedVocab = f.vocabulary.isOwned ∧
      (f.buffer β).hasPositions = f.hasPositions := by
  unfold buffer
  cases f.vocabulary with
  | borrowed strings => exact ⟨rfl, rfl, rfl⟩
  | owned => exact ⟨rfl, rfl, rfl⟩

/-- **One budget**: the feed is drained whole, into the groupings of its tokens. -/
theorem addCall_drained (hf : f.Accepted toks) (hβ : β.Good) {vocab : List Bytes}
    (htoks : arrivalTokens f.vocabulary.isOwned f.vocabulary.strings f.arrivals =
      some (toks, vocab)) :
    ∃ out, f.addCall β = some { overCap := β.overCap
                                input := { f.input with source := .drained (.ok ()) out } } ∧
      LaysAll (pumpCalls f.input.hasPrx) true vocab f.hasPositions toks out := by
  obtain ⟨hvocab, howned, hpos⟩ := f.buffer_config β
  have hstart : Fed (f.buffer β) [] := (f.constructed_buffer β).fed (hvocab ▸ hf.distinct)
  rw [← hvocab, ← howned] at htoks
  obtain ⟨b, hrun, hfed, hvocab', hpos'⟩ := runAdds_fed hstart htoks hf.valid hβ.answers
  rw [List.nil_append] at hfed
  obtain ⟨out, b', hdrain, hlays⟩ := hfed.forEachTermSorted hβ.drain hf.count hf.inOrder
    (restrained_pumpCalls f.input.hasPrx)
  refine ⟨out, ?_, ?_⟩
  · rw [addCall, hrun, Option.bind_some, hdrain, Option.map_some]
  · rwa [hvocab', hpos', hpos] at hlays

/-- **Two budgets** drain the same postings. -/
theorem addCalls_same (hf : f.Accepted toks) (hβ : β.Good) (hβ' : β'.Good) :
    ∃ a a', f.addCall β = some a ∧ f.addCall β' = some a' ∧ SameCall a a' := by
  obtain ⟨vocab, htoks⟩ := hf.tokens
  obtain ⟨out, hadd, hlays⟩ := addCall_drained hf hβ htoks
  obtain ⟨out', hadd', hlays'⟩ := addCall_drained hf hβ' htoks
  exact ⟨_, _, hadd, hadd', rfl, rfl, LaysAll.sameTerms hlays hlays'⟩

end IndexFeed

/-- **The file does not depend on the budget.**  Whatever two budgets answer to one feed,
the index is added with the same status, every other call reports the same, and the
bytes of the container are the same, before `finish` and after it. -/
theorem container_eq_of_budgets (env : BuildEnv) {f : IndexFeed} {toks : List Token}
    (hf : f.Accepted toks) {β β' : Budget} (hβ : β.Good) (hβ' : β'.Good)
    (before after : List AddCall) :
    ∃ a a', f.addCall β = some a ∧ f.addCall β' = some a' ∧
      let session := addAll env {} (before ++ a :: after)
      let session' := addAll env {} (before ++ a' :: after)
      session'.1 = session.1 ∧ session'.2.out = session.2.out ∧
        (finish session'.2).1 = (finish session.2).1 ∧
        (finish session'.2).2.out = (finish session.2).2.out := by
  obtain ⟨a, a', ha, ha', hsame⟩ := IndexFeed.addCalls_same hf hβ hβ'
  refine ⟨a, a', ha, ha', ?_⟩
  have hrefl : ∀ calls : List AddCall, List.Forall₂ SameCall calls calls := fun calls =>
    List.forall₂_same.mpr fun c _ => SameCall.refl c
  exact sessions_same (List.rel_append (hrefl before) (.cons hsame (hrefl after)))

/-- Two terms, the first of them back for the same document. -/
def twoTermFeed : IndexFeed :=
  { vocabulary := .owned, hasPositions := true
    arrivals := [.byString [98] 1 4, .byString [97] 1 5, .byString [98] 1 6, .byId 0 2 0]
    input := { docCount := 3 } }

/-- Spills after the first token, and stages the dictionary in a temp file. -/
def tightBudget : Budget :=
  { spillThresholdBytes := 0, hasReporter := true, answers := fun i => { overCap := i == 0 }
    drain := {}, overCap := fun _ => true }

def freeBudget : Budget :=
  { spillThresholdBytes := 0, hasReporter := false, answers := fun _ => {}
    drain := {}, overCap := fun _ => false }

theorem container_eq_of_budgets_twoTermFeed :
    ∃ a a', twoTermFeed.addCall tightBudget = some a ∧ twoTermFeed.addCall freeBudget = some a' ∧
      let session := addAll storeEnv {} [a]
      let session' := addAll storeEnv {} [a']
      session'.1 = session.1 ∧ session'.2.out = session.2.out ∧
        (finish session'.2).1 = (finish session.2).1 ∧
        (finish session'.2).2.out = (finish session.2).2.out := by
  have hord : InOrder [⟨0, 1, 4⟩, ⟨1, 1, 5⟩, ⟨0, 1, 6⟩, ⟨0, 2, 0⟩] := by
    intro id
    have hdocs : ([⟨0, 1, 4⟩, ⟨1, 1, 5⟩, ⟨0, 1, 6⟩, ⟨0, 2, 0⟩] : List Token).Pairwise
        fun a b => a.docid ≤ b.docid := by decide
    exact List.pairwise_map.mpr (hdocs.filter _)
  have hfeed : twoTermFeed.Accepted [⟨0, 1, 4⟩, ⟨1, 1, 5⟩, ⟨0, 1, 6⟩, ⟨0, 2, 0⟩] :=
    ⟨by decide, ⟨[[98], [97]], by decide⟩, by unfold Token.Valid; decide, hord, by decide⟩
  have hgood : SpimiTermBuffer.Good {} := ⟨rfl, rfl, fun _ => rfl, rfl⟩
  exact container_eq_of_budgets storeEnv hfeed ⟨fun _ => hgood, hgood⟩ ⟨fun _ => hgood, hgood⟩ [] []

end Snii.Writer.CompoundWriter
