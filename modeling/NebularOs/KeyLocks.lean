import Mathlib
import NebularOs.OrderedLocks

/-!
# Locks of keys

Keys share a fixed number of locks, chosen by a hash. An operation takes the lock of one
key, to write or to read, or those of several keys in ascending order and each once, and
afterwards perhaps the lock under which capacity is reserved, which comes after all others.
Whatever the keys are and however their locks collide, no tasks wait for one another.
-/

namespace NebularOs.KeyLocks

open OrderedLocks List

/-- Number of locks of keys. -/
def stripes : ℕ := 4096

/-- A lock of keys, or the capacity lock, which is the last one. -/
abbrev Lock := Fin (stripes+1)

/-- The capacity lock. -/
def capacityLock : Lock := Fin.last stripes

/-- Texts as their bytes. -/
abbrev Bytes := List UInt8

/-- What a task does with the locks of keys. -/
inductive Operation where
  /-- It writes a key. -/
  | lock (bucket key : Bytes)
  /-- It reads a key. -/
  | read (bucket key : Bytes)
  /-- It writes several keys. -/
  | lockMany (pairs : List (Bytes×Bytes))

section Plans

variable (hash : Bytes→UInt64)

/-- The lock of a key. -/
def stripe (bucket key : Bytes) : Lock :=
  ⟨(hash (bucket++[0]++key)).toNat%stripes,
    Nat.lt_succ_of_lt (Nat.mod_lt _ (by decide))⟩

/-- The locks of an operation, in the order in which it takes them. Equal ones are next to
each other when they are sorted, and are taken once. -/
def Operation.requests : Operation → List (Lock×Mode)
  | .lock bucket key => [(stripe hash bucket key,.exclusive)]
  | .read bucket key => [(stripe hash bucket key,.shared)]
  | .lockMany pairs =>
    (((pairs.map fun pair => stripe hash pair.1 pair.2).insertionSort (· ≤ ·)).dedup).map
      fun lock => (lock,.exclusive)

/-- A task: at most one operation, and perhaps a reservation of capacity after it. -/
structure Task where
  /-- The operation. -/
  operation : Option Operation
  /-- Whether it reserves capacity. -/
  reserves : Bool

/-- All locks that a task takes. -/
def Task.plan (task : Task) : List (Lock×Mode) :=
  (task.operation.elim [] (Operation.requests hash))++
    if task.reserves then [(capacityLock,.exclusive)] else []

theorem stripe_lt (bucket key : Bytes) : stripe hash bucket key<capacityLock :=
  Nat.mod_lt _ (by decide)

theorem requests_ascending (operation : Operation) :
    ((operation.requests hash).map Prod.fst).Pairwise (· < ·) ∧
      ∀ lock∈(operation.requests hash).map Prod.fst,lock<capacityLock := by
  cases operation with
  | lock bucket key | read bucket key => exact ⟨pairwise_singleton _ _,by simp [Operation.requests,stripe_lt]⟩
  | lockMany pairs =>
    set locks := (pairs.map fun pair => stripe hash pair.1 pair.2).insertionSort (· ≤ ·) with hlocks
    have hmap : ((Operation.lockMany pairs).requests hash).map Prod.fst=locks.dedup := by
      rw [Operation.requests,map_map]
      exact map_id _
    rw [hmap]
    constructor
    · have hsorted : locks.Pairwise (· ≤ ·) := pairwise_insertionSort _ _
      exact ((hsorted.sublist (dedup_sublist _)).and (nodup_dedup _)).imp
        fun hle => lt_of_le_of_ne hle.1 hle.2
    · intro lock hlock
      rw [mem_dedup,hlocks,mem_insertionSort] at hlock
      obtain ⟨pair,_,rfl⟩ := mem_map.mp hlock
      exact stripe_lt hash pair.1 pair.2

theorem plan_ascending (task : Task) : ((task.plan hash).map Prod.fst).Pairwise (· < ·) := by
  unfold Task.plan
  cases hoperation : task.operation with
  | none =>
    cases task.reserves with
    | false => exact List.Pairwise.nil
    | true => exact pairwise_singleton _ _
  | some operation =>
    obtain ⟨hascending,hless⟩ := requests_ascending hash operation
    rw [Option.elim_some,map_append,pairwise_append]
    cases task.reserves with
    | false => exact ⟨hascending,List.Pairwise.nil,fun _ _ _ hmem => absurd hmem not_mem_nil⟩
    | true =>
      refine ⟨hascending,pairwise_singleton _ _,fun lock hlock last hlast => ?_⟩
      exact mem_singleton.mp hlast ▸ hless lock hlock

end Plans

/-- In every interleaving of any tasks there is no set of tasks that each wait for a lock
that one of them holds or has asked for before. -/
theorem no_tasks_wait_for_one_another {T : Type} [DecidableEq T] (hash : Bytes→UInt64)
    (tasks : T→Task) (moves : List (Move T Lock)) :
    ¬∃ waiting : Set T,waiting.Nonempty ∧ ∀ t∈waiting,
      Waits (run (start fun t => (tasks t).plan hash) moves) waiting t := by
  rintro ⟨waiting,hsome,hwaits⟩
  have hstart := @inOrder_start T Lock _ (fun t => (tasks t).plan hash)
    fun t => plan_ascending hash (tasks t)
  exact (hstart.run moves).not_waits hsome hwaits

end NebularOs.KeyLocks
