import Mathlib.Algebra.Ring.Nat

/-!
# Programs that ask

A program is a tree of requests, each with what follows from its answer.  The same
program runs over a function that answers (`run`) and over a state that answers and
changes (`runFrom`); where both answer alike, the state at the end is the one that the
requests in their order lead to (`runFrom_eq`).  Of the requests that are made under given
answers, `cost` adds up the prices and `Asks` says of what kind they are.  Where an answer
may be a fault instead, so may the result, and it is right otherwise (`Runs.sound`).
-/

namespace Snii.Lib.Requests

/-- A program that ends in a result or asks and goes on with the answer. -/
inductive Program (Q : Type) (A : Q → Type) (ε α : Type) where
  | done (result : Except ε α)
  | ask (q : Q) (next : A q → Program Q A ε α)

variable {Q : Type} {A : Q → Type} {ε α β γ : Type}

namespace Program

def bind (f : α → Program Q A ε β) : Program Q A ε α → Program Q A ε β
  | done (.ok x) => f x
  | done (.error e) => done (.error e)
  | ask q next => ask q fun a => bind f (next a)

instance : Monad (Program Q A ε) where
  pure x := done (.ok x)
  bind p f := p.bind f

theorem id_bind (p : Program Q A ε α) : (p >>= fun x => Pure.pure x) = p := by
  induction p with
  | done r => cases r <;> rfl
  | ask q next ih => exact congrArg (ask q) (funext ih)

theorem bind_bind (p : Program Q A ε α) (f : α → Program Q A ε β) (g : β → Program Q A ε γ) :
    p >>= f >>= g = p >>= fun x => f x >>= g := by
  induction p with
  | done r => cases r <;> rfl
  | ask q next ih => exact congrArg (ask q) (funext ih)

instance : LawfulMonad (Program Q A ε) :=
  LawfulMonad.mk' _ id_bind (fun _ _ => rfl) bind_bind

/-- A request whose answer is the result. -/
def request (q : Q) : Program Q A ε (A q) := ask q fun a => done (.ok a)

/-- A result that needs no request. -/
def lift (r : Except ε α) : Program Q A ε α := done r

/-! ## Runs -/

/-- The result under the given answers; a request that fails ends the program. -/
def run (answer : ∀ q, Except ε (A q)) : Program Q A ε α → Except ε α
  | done r => r
  | ask q next =>
      match answer q with
      | .ok a => run answer (next a)
      | .error e => .error e

/-- The requests that are made under the given answers. -/
def asked (answer : ∀ q, Except ε (A q)) : Program Q A ε α → List Q
  | done _ => []
  | ask q next =>
      q :: match answer q with
        | .ok a => asked answer (next a)
        | .error _ => []

/-- The result and the last state where a state answers. -/
def runFrom {σ : Type} (answer : σ → ∀ q, σ × Except ε (A q)) :
    σ → Program Q A ε α → σ × Except ε α
  | s, done r => (s, r)
  | s, ask q next =>
      match answer s q with
      | (s', .ok a) => runFrom answer s' (next a)
      | (s', .error e) => (s', .error e)

variable {answer : ∀ q, Except ε (A q)} {p : Program Q A ε α} {f : α → Program Q A ε β}

@[simp] theorem run_pure (x : α) : run answer (Pure.pure x : Program Q A ε α) = .ok x := rfl

@[simp] theorem run_lift (r : Except ε α) : run answer (lift r : Program Q A ε α) = r := rfl

@[simp] theorem run_request (q : Q) : run answer (request q) = answer q := by
  rw [request, run]
  cases answer q <;> rfl

@[simp] theorem run_bind : run answer (p >>= f) = run answer p >>= fun x => run answer (f x) := by
  induction p with
  | done r => cases r <;> rfl
  | ask q next ih =>
      show run answer (ask q fun a => bind f (next a)) = run answer (ask q next) >>= _
      rw [run, run]
      cases answer q with
      | ok a => exact ih a
      | error e => rfl

theorem asked_bind : asked answer (p >>= f) = asked answer p ++
    match run answer p with
    | .ok x => asked answer (f x)
    | .error _ => [] := by
  induction p with
  | done r => cases r <;> rfl
  | ask q next ih =>
      show asked answer (ask q fun a => bind f (next a)) = asked answer (ask q next) ++ _
      rw [asked, asked, run]
      cases answer q with
      | ok a => exact congrArg (q :: ·) (ih a)
      | error e => rfl

theorem run_mapM {f : β → Program Q A ε α} (xs : List β) :
    run answer (xs.mapM f) = xs.mapM fun x => run answer (f x) := by
  induction xs with
  | nil => rfl
  | cons x xs ih =>
      rw [List.mapM_cons, List.mapM_cons, run_bind]
      congr 1
      funext y
      rw [run_bind, ih]
      rfl

/-! ## States that answer -/

/-- In every good state the answer is the given one, or an error where that is one. -/
structure Serves {σ : Type} (answer : ∀ q, Except ε (A q))
    (answerFrom : σ → ∀ q, σ × Except ε (A q)) (Good : σ → Prop) : Prop where
  keeps : ∀ s q, Good s → Good (answerFrom s q).1
  agrees : ∀ s q, Good s → ∀ a, (answerFrom s q).2 = .ok a ↔ answer q = .ok a

/-- **A state that answers** ends where the requests in their order lead, with the result
under the answers that do not change. -/
theorem runFrom_eq {σ : Type} {answerFrom : σ → ∀ q, σ × Except ε (A q)} {Good : σ → Prop}
    (h : Serves answer answerFrom Good) {s : σ} (hs : Good s) (p : Program Q A ε α) :
    (runFrom answerFrom s p).1 = (asked answer p).foldl (fun s q => (answerFrom s q).1) s ∧
      ∀ x, (runFrom answerFrom s p).2 = .ok x ↔ run answer p = .ok x := by
  induction p generalizing s with
  | done r => exact ⟨rfl, fun x => Iff.rfl⟩
  | ask q next ih =>
      have hagrees := h.agrees s q hs
      rw [runFrom, asked, run, List.foldl_cons]
      cases hstep : answerFrom s q with
      | mk s' r =>
          have hs' : Good s' := by
            have hkeeps := h.keeps s q hs
            rwa [hstep] at hkeeps
          rw [hstep] at hagrees
          cases r with
          | ok a =>
              rw [(hagrees a).mp rfl]
              exact ih a hs'
          | error e =>
              cases hans : answer q with
              | ok a => exact nomatch (hagrees a).mpr hans
              | error e' => exact ⟨rfl, fun x => ⟨fun hx => (nomatch hx), fun hx => (nomatch hx)⟩⟩

/-! ## Prices -/

/-- What the requests of the run cost. -/
def cost (answer : ∀ q, Except ε (A q)) (price : Q → Nat) (p : Program Q A ε α) : Nat :=
  ((asked answer p).map price).sum

variable {price : Q → Nat} {n m : Nat}

theorem cost_pure_le (x : α) : cost answer price (Pure.pure x : Program Q A ε α) ≤ n :=
  Nat.zero_le n

theorem cost_lift_le (r : Except ε α) : cost answer price (lift r : Program Q A ε α) ≤ n :=
  Nat.zero_le n

theorem cost_request_le (q : Q) :
    cost answer price (request q : Program Q A ε (A q)) ≤ price q := by
  rw [cost, request, asked]
  cases answer q <;> exact Nat.le_refl (price q)

theorem cost_bind_le (h : cost answer price p ≤ n)
    (hf : ∀ x, run answer p = .ok x → cost answer price (f x) ≤ m) :
    cost answer price (p >>= f) ≤ n + m := by
  rw [cost, asked_bind, List.map_append, List.sum_append]
  apply Nat.add_le_add h
  cases hrun : run answer p with
  | ok x => exact hf x hrun
  | error e => exact Nat.zero_le m

/-- What needs no request is free. -/
theorem cost_lift_bind_le {r : Except ε α}
    (hf : ∀ x, r = .ok x → cost answer price (f x) ≤ m) :
    cost answer price (lift r >>= f) ≤ m := by
  rw [← Nat.zero_add m]
  exact cost_bind_le (cost_lift_le r) hf

theorem cost_bind_free_le (h : cost answer price p ≤ n)
    (hf : ∀ x, cost answer price (f x) ≤ 0) : cost answer price (p >>= f) ≤ n :=
  cost_bind_le (m := 0) h fun x _ => hf x

theorem cost_mapM_le {f : β → Program Q A ε α} {xs : List β}
    (h : ∀ x ∈ xs, cost answer price (f x) ≤ n) :
    cost answer price (xs.mapM f) ≤ xs.length * n := by
  induction xs with
  | nil => exact Nat.zero_le _
  | cons x xs ih =>
      rw [List.mapM_cons, List.length_cons, Nat.succ_mul, Nat.add_comm]
      apply cost_bind_le (h x List.mem_cons_self)
      intro y _
      apply cost_bind_free_le (ih fun z hz => h z (List.mem_cons_of_mem x hz))
      exact fun ys => cost_pure_le (y :: ys)

/-! ## What is asked -/

/-- Every request of the run is of the kind. -/
def Asks (answer : ∀ q, Except ε (A q)) (P : Q → Prop) (p : Program Q A ε α) : Prop :=
  ∀ q ∈ asked answer p, P q

variable {P P' : Q → Prop}

theorem Asks.mono (h : Asks answer P p) (himp : ∀ q, P q → P' q) : Asks answer P' p :=
  fun q hq => himp q (h q hq)

theorem Asks.lift (r : Except ε α) : Asks answer P (lift r : Program Q A ε α) :=
  fun _ hq => absurd hq List.not_mem_nil

theorem Asks.pure (x : α) : Asks answer P (Pure.pure x : Program Q A ε α) :=
  fun _ hq => absurd hq List.not_mem_nil

theorem Asks.request {q : Q} (h : P q) : Asks answer P (request q : Program Q A ε (A q)) := by
  intro q' hq'
  rw [Program.request, asked] at hq'
  cases hans : answer q with
  | ok a =>
      rw [hans] at hq'
      rwa [List.mem_singleton.mp hq']
  | error e =>
      rw [hans] at hq'
      rwa [List.mem_singleton.mp hq']

theorem Asks.bind (h : Asks answer P p)
    (hf : ∀ x, run answer p = .ok x → Asks answer P (f x)) : Asks answer P (p >>= f) := by
  intro q hq
  rw [asked_bind] at hq
  rcases List.mem_append.mp hq with hq | hq
  · exact h q hq
  · cases hrun : run answer p with
    | ok x =>
        rw [hrun] at hq
        exact hf x hrun q hq
    | error e =>
        rw [hrun] at hq
        exact absurd hq List.not_mem_nil

theorem Asks.ite {c : Prop} [Decidable c] {p' : Program Q A ε α} (h : c → Asks answer P p)
    (h' : ¬c → Asks answer P p') : Asks answer P (if c then p else p') := by
  by_cases hc : c
  · rw [if_pos hc]
    exact h hc
  · rw [if_neg hc]
    exact h' hc

theorem Asks.mapM {f : β → Program Q A ε α} {xs : List β}
    (h : ∀ x ∈ xs, Asks answer P (f x)) : Asks answer P (xs.mapM f) := by
  induction xs with
  | nil => exact Asks.pure []
  | cons x xs ih =>
      rw [List.mapM_cons]
      apply (h x List.mem_cons_self).bind
      intro y _
      apply (ih fun z hz => h z (List.mem_cons_of_mem x hz)).bind
      intro ys _
      exact Asks.pure (y :: ys)

/-- The runs of a program whose requests may be answered in more than one way. -/
inductive Runs (may : ∀ q, Except ε (A q) → Prop) : Program Q A ε α → Except ε α → Prop where
  | done (result : Except ε α) : Runs may (done result) result
  | ok (q : Q) (next : A q → Program Q A ε α) (a : A q) (result : Except ε α)
      (h : may q (.ok a)) (hrest : Runs may (next a) result) : Runs may (ask q next) result
  | error (q : Q) (next : A q → Program Q A ε α) (e : ε) (h : may q (.error e)) :
      Runs may (ask q next) (.error e)

/-- What may be answered is the given answer, or a fault in its place. -/
structure Faulty (answer : ∀ q, Except ε (A q)) (may : ∀ q, Except ε (A q) → Prop)
    (Fault : ε → Prop) : Prop where
  right : ∀ q a, may q (.ok a) → answer q = .ok a
  wrong : ∀ q a e, answer q = .ok a → may q (.error e) → Fault e

variable {may : ∀ q, Except ε (A q) → Prop} {Fault : ε → Prop}

/-- **A run over answers that may fail** is right, or ends with a fault. -/
theorem Runs.sound {result : Except ε α} (h : Faulty answer may Fault)
    (hrun : Runs may p result) :
    (∀ x, result = .ok x → run answer p = .ok x) ∧
      ∀ x e, run answer p = .ok x → result = .error e → Fault e := by
  induction hrun with
  | done result =>
      refine ⟨fun x hx => hx, fun x e hx he => ?_⟩
      rw [run, he] at hx
      cases hx
  | ok q next a result hmay hrest ih =>
      rw [run, h.right q a hmay]
      exact ih
  | error q next e hmay =>
      refine ⟨fun x hx => (nomatch hx), fun x e' hx he => ?_⟩
      cases he
      rw [run] at hx
      cases hans : answer q with
      | ok a => exact h.wrong q a e hans hmay
      | error e' =>
          rw [hans] at hx
          cases hx

/-- Where every request may be answered, every program has a run. -/
theorem exists_runs (h : ∀ q, ∃ result, may q result) (p : Program Q A ε α) :
    ∃ result, Runs may p result := by
  induction p with
  | done result => exact ⟨result, .done result⟩
  | ask q next ih =>
      obtain ⟨answered, hmay⟩ := h q
      cases answered with
      | ok a =>
          obtain ⟨result, hrest⟩ := ih a
          exact ⟨result, .ok q next a result hmay hrest⟩
      | error e => exact ⟨.error e, .error q next e hmay⟩

end Program

end Snii.Lib.Requests
