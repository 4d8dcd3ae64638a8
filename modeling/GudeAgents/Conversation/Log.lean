import Mathlib.Algebra.Ring.Int.Defs
import Mathlib.Algebra.Ring.Nat
import Mathlib.Logic.Function.Basic
/-!
# The conversation log

An append-only list of messages, numbered from 1, with a revision that counts the appends; a cursor
`k` stands for the messages up to number `k`.
-/
namespace GudeAgents.Conversation
open List
structure Cursor where
  revision : UInt64
  lastSequence : UInt64
deriving DecidableEq

structure Snapshot (M : Type) where
  messages : List M
  revision : UInt64
  lastSequence : UInt64
deriving DecidableEq

def maxInt : Nat := 2 ^ 63 - 1

structure Log (M : Type) where
  messages : List M := []
  revision : UInt64 := 0
deriving DecidableEq

namespace Log
variable {M : Type}
def lastSequence (log : Log M) : UInt64 :=
  UInt64.ofNat log.messages.length
def above (k : UInt64) (log : Log M) : List M :=
  ((log.messages.zipIdx 1).filter fun message => k.toNat < message.2).map Prod.fst
def snapshot (k : UInt64) (log : Log M) : Snapshot M :=
  ⟨log.above k,log.revision,log.lastSequence⟩
def extend (log : Log M) (messages : List M) : Log M :=
  ⟨log.messages ++ messages,log.revision + 1⟩

theorem filter_zipIdx_eq_drop (messages : List M) (n k : Nat) :
    ((messages.zipIdx (n + 1)).filter fun message => k + n < message.2).map Prod.fst =
      messages.drop k := by
  induction messages generalizing n k with
  | nil => simp
  | cons message rest ih =>
    rw [zipIdx_cons]
    cases k with
    | zero =>
      have hall : (rest.zipIdx (n + 1 + 1)).filter (fun message => 0 + n < message.2) =
          rest.zipIdx (n + 1 + 1) := by
        apply filter_eq_self.mpr
        intro x hx
        have := le_snd_of_mem_zipIdx hx
        simp only [decide_eq_true_eq]
        omega
      rw [filter_cons_of_pos (by simp),map_cons,hall,zipIdx_map_fst,drop_zero]
    | succ k =>
      rw [filter_cons_of_neg (by simp only [decide_eq_true_eq]; omega),drop_succ_cons,← ih (n + 1) k]
      congr 1
      apply filter_congr
      intro x _
      simp only [decide_eq_decide]
      omega

theorem above_eq_drop (k : UInt64) (log : Log M) : log.above k = log.messages.drop k.toNat := by
  exact filter_zipIdx_eq_drop log.messages 0 k.toNat

theorem length_snapshot_messages (k : UInt64) {log : Log M} (h : log.messages.length ≤ maxInt) :
    (log.snapshot k).messages.length =
      (log.snapshot k).lastSequence.toNat - min k.toNat (log.snapshot k).lastSequence.toNat := by
  have hlast : (log.snapshot k).lastSequence.toNat = log.messages.length := by
    apply Nat.mod_eq_of_lt
    unfold maxInt at h
    omega
  rw [hlast]
  simp only [snapshot,above_eq_drop,length_drop]
  omega
end Log
end GudeAgents.Conversation
