import Mathlib.Logic.Basic

/-!
# Clients of an interface

A computation that reaches the outside only through the operations of an interface. What it asks
for is judged against a protocol, which says in which states an operation may be performed and
what it leads to; a handler performs the operations on a state of its own.
-/

namespace Pbc.Misc

/-- A computation that performs operations and goes on with their results. -/
inductive Client (Op : Type) (Result : Op → Type) (α : Type) where
  | done (a : α)
  | call (op : Op) (next : Result op → Client Op Result α)

variable {Op : Type} {Result : Op → Type} {α β : Type}

namespace Client

def bind : Client Op Result α → (α → Client Op Result β) → Client Op Result β
  | .done a, f => f a
  | .call op next, f => .call op fun r => (next r).bind f

instance clientMonad : Monad (Client Op Result) where
  pure := .done
  bind := bind

theorem call_bind (op : Op) (next : Result op → Client Op Result α)
    (f : α → Client Op Result β) : (Client.call op next >>= f) = .call op fun r => next r >>= f := rfl

end Client

/-- When an operation is allowed, and what it leads to with some result. -/
structure Protocol (Op : Type) (Result : Op → Type) (γ : Type) where
  Allows : Op → γ → Prop
  After : (op : Op) → γ → Result op → γ → Prop

section Protocols

variable {γ : Type} {protocol : Protocol Op Result γ}

/-- Every operation that a client performs from a state on is allowed. -/
def Client.Follows (protocol : Protocol Op Result γ) : Client Op Result α → γ → Prop
  | .done _, _ => True
  | .call op next, g => protocol.Allows op g ∧
      ∀ r g', protocol.After op g r g' → (next r).Follows protocol g'

namespace Client

/-- A client follows a protocol if its parts do, the second one from wherever the first one
leaves it. -/
theorem Follows.bind {p : Client Op Result α} {f : α → Client Op Result β} {g : γ}
    (first : p.Follows protocol g) (second : ∀ a g', (f a).Follows protocol g') :
    (p >>= f).Follows protocol g := by
  induction p generalizing g with
  | done a => exact second a g
  | call op next ih =>
    obtain ⟨allowed, rest⟩ := first
    exact ⟨allowed, fun r g' after => ih r (rest r g' after)⟩

end Client

end Protocols

section Handlers

variable {σ ε : Type}

/-- A run of a client whose operations a handler performs. -/
def Client.run (handle : (op : Op) → σ → Except ε (Result op × σ)) :
    Client Op Result α → σ → Except ε (α × σ)
  | .done a, s => .ok (a, s)
  | .call op next, s => do
      let (r, s) ← handle op s
      (next r).run handle s

variable {handle : (op : Op) → σ → Except ε (Result op × σ)}

/-- The run of a client goes on with the run of what follows it. -/
theorem Client.run_bind (p : Client Op Result α) (f : α → Client Op Result β) (s : σ) :
    (p >>= f).run handle s = p.run handle s >>= fun out => (f out.1).run handle out.2 := by
  induction p generalizing s with
  | done a => rfl
  | call op next ih =>
    rw [call_bind, Client.run, Client.run]
    cases handle op s with
    | error e => rfl
    | ok out => exact ih out.1 out.2

end Handlers

section Simulation

variable {γ σ τ ε ε' : Type} {fault : ε' → ε}

/-- Two computations with one result, in related states, or with faults that belong together. -/
inductive Simulates {β : Type} (fault : ε' → ε) (rel : β → σ → τ → Prop) :
    Except ε (β × σ) → Except ε' (β × τ) → Prop where
  | ok (b : β) {s : σ} {t : τ} (holds : rel b s t) : Simulates fault rel (.ok (b, s)) (.ok (b, t))
  | error (e : ε') : Simulates fault rel (.error (fault e)) (.error e)

variable {protocol : Protocol Op Result γ} {rel : γ → σ → τ → Prop}
  {handle : (op : Op) → σ → Except ε (Result op × σ)}
  {handle' : (op : Op) → τ → Except ε' (Result op × τ)}

/-- Where the allowed operations of one handler simulate those of another one, so do the runs of
a client that follows the protocol. -/
theorem Client.Follows.simulates
    (step : ∀ op g s t, protocol.Allows op g → rel g s t →
      Simulates fault (fun r s t => ∃ g', protocol.After op g r g' ∧ rel g' s t)
        (handle op s) (handle' op t))
    {p : Client Op Result α} {g : γ} {s : σ} {t : τ} (follows : p.Follows protocol g)
    (start : rel g s t) :
    Simulates fault (fun _ s t => ∃ g', rel g' s t) (p.run handle s) (p.run handle' t) := by
  induction p generalizing g s t with
  | done a => exact .ok a ⟨g, start⟩
  | call op next ih =>
    obtain ⟨allowed, rest⟩ := follows
    have turn := step op g s t allowed start
    rw [Client.run, Client.run]
    generalize handle op s = x at turn ⊢
    generalize handle' op t = y at turn ⊢
    cases turn with
    | ok r holds =>
      obtain ⟨g', after, related⟩ := holds
      exact ih r (rest r g' after) related
    | error e => exact .error e

end Simulation

end Pbc.Misc
