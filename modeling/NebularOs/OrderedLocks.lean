import Mathlib

/-!
# Locks that are taken in order

Tasks take locks, shared or for themselves, one after the other. A lock is fair: it is
granted in the order of the requests, and a reader does not pass a writer that waits. If
the locks have an order and every task asks for them in that order, then no set of tasks
waits for itself, whatever the interleaving is and in whatever order locks are given back.
-/

namespace OrderedLocks

open List Function

/-- How a lock is taken. -/
inductive Mode where
  /-- Together with others. -/
  | shared
  /-- Alone. -/
  | exclusive
  deriving DecidableEq

/-- Locks with those who hold them and those who wait, and what tasks still ask for. -/
structure State (T L : Type) where
  /-- Tasks that hold a lock. -/
  holders : L → List (T×Mode)
  /-- Tasks that wait for a lock, in the order of their requests. -/
  queue : L → List (T×Mode)
  /-- Locks that a task has not got yet. -/
  todo : T → List (L×Mode)

/-- What may happen next. -/
inductive Move (T L : Type) where
  /-- A task asks for its next lock. -/
  | request (t : T)
  /-- A lock is granted to the first task that waits. -/
  | grant (lock : L)
  /-- A task gives a lock back. -/
  | release (t : T) (lock : L)

variable {T L : Type} [DecidableEq T] [DecidableEq L]

/-- Whether a lock can be granted besides those who hold it. -/
def compatible (holders : List (T×Mode)) : Mode→Bool
  | .shared => holders.all fun holder => holder.2=.shared
  | .exclusive => holders.isEmpty

/-- A task asks for its next lock, unless it waits for it already. -/
def State.request (s : State T L) (t : T) : State T L :=
  match s.todo t with
  | [] => s
  | (lock,mode)::_ =>
    if t∈(s.queue lock).map Prod.fst then s
    else { s with queue := update s.queue lock (s.queue lock++[(t,mode)]) }

/-- The first task that waits for a lock gets it, if it can. -/
def State.grant (s : State T L) (lock : L) : State T L :=
  match s.queue lock with
  | [] => s
  | (t,mode)::rest =>
    if compatible (s.holders lock) mode then
      { holders := update s.holders lock ((t,mode)::s.holders lock)
        queue := update s.queue lock rest
        todo := update s.todo t (s.todo t).tail }
    else s

/-- A task gives a lock back. -/
def State.release (s : State T L) (t : T) (lock : L) : State T L :=
  { s with holders :=
      update s.holders lock ((s.holders lock).filter fun holder => holder.1≠t) }

/-- One move. -/
def step (s : State T L) : Move T L→State T L
  | .request t => s.request t
  | .grant lock => s.grant lock
  | .release t lock => s.release t lock

/-- Any interleaving. -/
def run (s : State T L) (moves : List (Move T L)) : State T L :=
  moves.foldl step s

/-- No task has asked for a lock. -/
def start (plans : T → List (L×Mode)) : State T L :=
  ⟨fun _ => [],fun _ => [],plans⟩

/-- A task waits for a lock that a task of the set holds or has asked for before. -/
def Waits (s : State T L) (tasks : Set T) (t : T) : Prop :=
  ∃ lock mode before after,s.queue lock=before++(t,mode)::after ∧
    ∃ other∈tasks,other∈(s.holders lock).map Prod.fst ∨ other∈before.map Prod.fst

variable [LinearOrder L]

/-- Tasks take their locks in order. -/
structure InOrder (s : State T L) : Prop where
  /-- They will. -/
  ascending : ∀ t,((s.todo t).map Prod.fst).Pairwise (· < ·)
  /-- They wait for the next one. -/
  next : ∀ {lock t mode},(t,mode)∈s.queue lock→∃ rest,s.todo t=(lock,mode)::rest
  /-- They wait once. -/
  once : ∀ lock,((s.queue lock).map Prod.fst).Nodup
  /-- They hold only smaller ones. -/
  behind : ∀ {lock t mode},(t,mode)∈s.holders lock→∀ request∈s.todo t,lock < request.1

omit [DecidableEq T] [DecidableEq L] in
theorem inOrder_start {plans : T → List (L×Mode)}
    (h : ∀ t,((plans t).map Prod.fst).Pairwise (· < ·)) : InOrder (start plans) :=
  ⟨h,fun hmem => absurd hmem not_mem_nil,fun _ => nodup_nil,
    fun hmem => absurd hmem not_mem_nil⟩

omit [DecidableEq T] [LinearOrder L] in
theorem mem_update {α : Type} {lists : L → List α} {list : List α} {lock other : L} {x : α} :
    x∈update lists lock list other ↔
      (other=lock ∧ x∈list) ∨ (other≠lock ∧ x∈lists other) := by
  by_cases hlock : other=lock
  · subst hlock
    simp
  · simp [hlock]

theorem InOrder.request {s : State T L} (h : InOrder s) (t : T) : InOrder (s.request t) := by
  unfold State.request
  cases htodo : s.todo t with
  | nil => exact h
  | cons request rest =>
    obtain ⟨lock,mode⟩ := request
    dsimp only
    split_ifs with hwaits
    · exact h
    refine ⟨h.ascending,fun {lock' t' mode'} hmem => ?_,fun lock' => ?_,h.behind⟩
    · rcases mem_update.mp hmem with ⟨rfl,hmem⟩ | ⟨_,hold⟩
      · rcases mem_append.mp hmem with hold | hnew
        · exact h.next hold
        · obtain ⟨rfl,rfl⟩ := Prod.mk.inj (mem_singleton.mp hnew)
          exact ⟨rest,htodo⟩
      · exact h.next hold
    · by_cases hlock : lock'=lock
      · subst hlock
        have honce := h.once lock'
        dsimp only
        rw [update_self,map_append,map_singleton]
        exact nodup_append.mpr ⟨honce,nodup_singleton _,fun first hfirst second hsecond =>
          mem_singleton.mp hsecond ▸ ne_of_mem_of_not_mem hfirst hwaits⟩
      · dsimp only
        rw [update_of_ne hlock]
        exact h.once lock'

/-- A grant keeps the order. -/
theorem InOrder.grant {s : State T L} (h : InOrder s) (lock : L) : InOrder (s.grant lock) := by
  unfold State.grant
  cases hqueue : s.queue lock with
  | nil => exact h
  | cons request rest =>
    obtain ⟨t,mode⟩ := request
    dsimp only
    split_ifs with hfree
    · obtain ⟨todo,htodo⟩ := h.next (show (t,mode)∈s.queue lock from hqueue ▸ mem_cons_self)
      have honce := h.once lock
      rw [hqueue,map_cons,nodup_cons] at honce
      have hascending := h.ascending t
      rw [htodo,map_cons,pairwise_cons] at hascending
      rw [htodo,tail_cons]
      refine ⟨fun t' => ?_,fun {lock' t' mode'} hmem => ?_,fun lock' => ?_,
        fun {lock' t' mode'} hmem request hrequest => ?_⟩
      · by_cases ht : t'=t
        · subst ht
          dsimp only
          rw [update_self]
          exact hascending.2
        · dsimp only
          rw [update_of_ne ht]
          exact h.ascending t'
      · have hother : (t',mode')∈s.queue lock' ∧ t'≠t := by
          rcases mem_update.mp hmem with ⟨rfl,hrest⟩ | ⟨hlock,hold⟩
          · rw [hqueue]
            exact ⟨mem_cons_of_mem _ hrest,
              ne_of_mem_of_not_mem (mem_map_of_mem hrest) honce.1⟩
          · refine ⟨hold,fun heq => ?_⟩
            obtain ⟨more,hmore⟩ := h.next hold
            rw [heq,htodo] at hmore
            exact hlock (Prod.mk.inj (List.cons.inj hmore).1).1.symm
        dsimp only
        rw [update_of_ne hother.2]
        exact h.next hother.1
      · by_cases hlock : lock'=lock
        · subst hlock
          dsimp only
          rw [update_self]
          exact honce.2
        · dsimp only
          rw [update_of_ne hlock]
          exact h.once lock'
      · have hless : request∈s.todo t' := by
          rcases mem_update.mp hrequest with ⟨rfl,hmore⟩ | ⟨_,hold⟩
          · exact htodo ▸ mem_cons_of_mem _ hmore
          · exact hold
        rcases mem_update.mp hmem with ⟨rfl,hmem⟩ | ⟨_,hold⟩
        · rcases mem_cons.mp hmem with hnew | hold
          · cases hnew
            dsimp only at hrequest
            rw [update_self] at hrequest
            exact hascending.1 request.1 (mem_map_of_mem hrequest)
          · exact h.behind hold request hless
        · exact h.behind hold request hless
    · exact h

/-- Tasks that lock in order keep to it in every run. -/
theorem InOrder.run {s : State T L} (h : InOrder s) (moves : List (Move T L)) :
    InOrder (run s moves) := by
  induction moves generalizing s with
  | nil => exact h
  | cons move moves ih =>
    refine ih ?_
    cases move with
    | request t => exact h.request t
    | grant lock => exact h.grant lock
    | release t lock =>
      refine ⟨h.ascending,h.next,h.once,fun {lock' t' mode'} hmem => ?_⟩
      rcases mem_update.mp hmem with ⟨rfl,hkept⟩ | ⟨_,hold⟩
      · exact h.behind (mem_of_mem_filter hkept)
      · exact h.behind hold

omit [DecidableEq T] [DecidableEq L] in
theorem exists_first {queue : List (T×Mode)} {tasks : Set T} (h : ∃ request∈queue,request.1∈tasks) :
    ∃ t mode before after,queue=before++(t,mode)::after ∧ t∈tasks ∧
      ∀ request∈before,request.1∉tasks := by
  induction queue with
  | nil =>
    obtain ⟨_,hmem,_⟩ := h
    cases hmem
  | cons first queue ih =>
    by_cases hfirst : first.1∈tasks
    · exact ⟨first.1,first.2,[],queue,rfl,hfirst,fun _ hmem => absurd hmem not_mem_nil⟩
    obtain ⟨request,hmem,hrequest⟩ := h
    have hrest : request∈queue := (mem_cons.mp hmem).resolve_left
      fun heq => hfirst (heq ▸ hrequest)
    obtain ⟨t,mode,before,after,hqueue,ht,hbefore⟩ := ih ⟨request,hrest,hrequest⟩
    refine ⟨t,mode,first::before,after,by rw [hqueue,cons_append],ht,fun other hother => ?_⟩
    rcases mem_cons.mp hother with rfl | hother
    · exact hfirst
    · exact hbefore other hother

omit [DecidableEq T] [DecidableEq L] in
/-- No set of tasks waits for itself: the first of those that wait for the largest lock
does not. -/
theorem InOrder.not_waits [WellFoundedGT L] {s : State T L} (h : InOrder s) {tasks : Set T}
    (hsome : tasks.Nonempty) : ¬∀ t∈tasks,Waits s tasks t := by
  intro hwaits
  have hlocks : {lock | ∃ request∈s.queue lock,request.1∈tasks}.Nonempty := by
    obtain ⟨t,ht⟩ := hsome
    obtain ⟨lock,mode,before,after,hqueue,_⟩ := hwaits t ht
    exact ⟨lock,(t,mode),by rw [hqueue]; simp,ht⟩
  obtain ⟨lock,hlock,hlargest⟩ := wellFounded_gt.has_min _ hlocks
  obtain ⟨t,mode,before,after,hqueue,ht,hfirst⟩ := exists_first hlock
  obtain ⟨lock',mode',before',after',hqueue',other,hother,hblocks⟩ := hwaits t ht
  have hnext : ∀ {lock t mode before after},s.queue lock=before++(t,mode)::after →
      ∃ rest,s.todo t=(lock,mode)::rest := fun hqueue => h.next (hqueue ▸ by simp)
  obtain ⟨rest,htodo⟩ := hnext hqueue
  obtain ⟨rest',htodo'⟩ := hnext hqueue'
  obtain ⟨⟨rfl,rfl⟩,rfl⟩ : (lock=lock' ∧ mode=mode') ∧ rest=rest' := by simpa [htodo] using htodo'
  rcases hblocks with hholds | hbefore
  · obtain ⟨lock'',mode'',before'',after'',hqueue'',_⟩ := hwaits other hother
    obtain ⟨rest'',htodo''⟩ := hnext hqueue''
    obtain ⟨⟨task,held⟩,hheld,rfl⟩ := mem_map.mp hholds
    have hless := h.behind hheld (lock'',mode'') (by rw [htodo'']; exact mem_cons_self)
    exact hlargest lock'' ⟨(task,mode''),by rw [hqueue'']; simp,hother⟩ hless
  · obtain ⟨request,hrequest,rfl⟩ := mem_map.mp hbefore
    have honce := h.once lock
    rw [hqueue'] at hqueue honce
    rcases append_eq_append_iff.mp hqueue with ⟨more,rfl,_⟩ | ⟨more,rfl,hmore⟩
    · exact hfirst request (mem_append_left _ hrequest) hother
    cases more with
    | nil => exact hfirst request (by simpa using hrequest) hother
    | cons first more =>
      cases hmore
      rw [map_append,nodup_append] at honce
      exact honce.2.2 t (by simp) t (by simp) rfl

end OrderedLocks
