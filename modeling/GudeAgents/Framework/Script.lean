import GudeAgents.Framework.Runs
/-!
# Scripted runs

A player answers calls by computation; what it plays from a script is a run of the system.
-/
namespace GudeAgents.Framework
/-- An executable part of a system: each answer, each joining worker and each outer event that it
computes is one the system allows. -/
structure Player {E : Effects} {σ α : Type} (S : System E σ α) where
  Choice : Type
  Joiner : Type
  Outer : Type
  answer : Nat → (op : E.Op) → Choice → σ → Option (E.Ans op × σ)
  join : Joiner → Nat → σ → Option (Program E α × σ)
  outer : Outer → σ → σ
  usual : Choice
  answer_sound : ∀ {i op c s a s'}, answer i op c s = some (a,s') → S.Perform i op s a s'
  join_sound : ∀ {j n s p s'}, join j n s = some (p,s') → S.Spawn n p s s'
  outer_sound : ∀ o s, S.Environment s (outer o s)

namespace Player
variable {E : Effects} {σ α : Type} {S : System E σ α} (P : Player S)
inductive Move where
  | join (joiner : P.Joiner)
  | step (i : Nat) (choice : P.Choice)
  /-- At most so many usual calls; it stops at a call that needs a choice. -/
  | run (i : Nat) (calls : Nat)
  | crash (i : Nat)
  | outer (event : P.Outer)

def once (i : Nat) (c : P.Choice) (pool : Pool E σ α) : Option (Pool E σ α) :=
  match pool.workers[i]? with
  | some (some (.call op next)) =>
    match P.answer i op c pool.shared with
    | some (a,s') => some ⟨s',pool.workers.set i (some (next a))⟩
    | none => none
  | _ => none

def serve (i : Nat) : Nat → Pool E σ α → Pool E σ α
  | 0, pool => pool
  | n + 1, pool =>
    match P.once i P.usual pool with
    | some pool' => serve i n pool'
    | none => pool

def apply : P.Move → Pool E σ α → Option (Pool E σ α)
  | .join j, pool =>
    match P.join j pool.workers.length pool.shared with
    | some (p,s') => some ⟨s',pool.workers ++ [some p]⟩
    | none => none
  | .step i c, pool => P.once i c pool
  | .run i n, pool => some (P.serve i n pool)
  | .crash i, pool => some ⟨pool.shared,pool.workers.set i none⟩
  | .outer o, pool => some ⟨P.outer o pool.shared,pool.workers⟩

def play : List P.Move → Pool E σ α → Option (Pool E σ α)
  | [], pool => some pool
  | m :: rest, pool =>
    match P.apply m pool with
    | some pool' => play rest pool'
    | none => none

variable {P}
variable {pool pool' : Pool E σ α}
theorem once_step {i : Nat} {c : P.Choice} (h : P.once i c pool = some pool') :
    S.Step pool pool' := by
  unfold once at h
  split at h
  · next op next hi =>
    split at h
    · next a s' hanswer =>
      cases h
      exact .run hi (P.answer_sound hanswer)
    · cases h
  · cases h

theorem serve_steps (i n : Nat) (pool : Pool E σ α) :
    Relation.ReflTransGen S.Step pool (P.serve i n pool) := by
  induction n generalizing pool with
  | zero => exact .refl
  | succ n ih =>
    unfold serve
    split
    · next pool' honce => exact (ih pool').head (once_step honce)
    · exact .refl

theorem apply_steps {m : P.Move} (h : P.apply m pool = some pool') :
    Relation.ReflTransGen S.Step pool pool' := by
  cases m with
  | join j =>
    simp only [apply] at h
    split at h
    · next p s' hjoin =>
      cases h
      exact .single (.spawn (P.join_sound hjoin))
    · cases h
  | step i c => exact .single (once_step h)
  | run i n =>
    cases h
    exact serve_steps i n pool
  | crash i =>
    cases h
    exact .single (.crash i)
  | outer o =>
    cases h
    exact .single (.environment (P.outer_sound o pool.shared))

theorem play_steps {moves : List P.Move} (h : P.play moves pool = some pool') :
    Relation.ReflTransGen S.Step pool pool' := by
  induction moves generalizing pool with
  | nil =>
    cases h
    exact .refl
  | cons m rest ih =>
    unfold play at h
    split at h
    · next pool1 happly => exact (apply_steps happly).trans (ih h)
    · cases h

theorem play_reachable {moves : List P.Move} {s : σ} (h : P.play moves ⟨s,[]⟩ = some pool) :
    S.Reachable s pool := play_steps h
end Player
end GudeAgents.Framework
