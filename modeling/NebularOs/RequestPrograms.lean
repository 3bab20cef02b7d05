import Mathlib

/-!
# Programs of atomic requests

An asynchronous function is a tree of requests: it issues one atomic operation,
waits for the answer and goes on. A machine says what an operation answers and
does to the shared state, and lets the scheduler choose among outcomes. The
same program can then be run alone, stopped after any request, or interleaved
with any number of other tasks.

For a program running alone this file gives its complete executions and the
states it can be stopped in, with the weakest-precondition rules for both.
-/

namespace RequestPrograms

/-- A program that issues requests `A`, whose answers have type `R`, and ends
with a value. -/
inductive Program (A : Type) (R : A→Type) (α : Type) : Type
  | done (value : α)
  | ask (request : A) (next : R request→Program A R α)

namespace Program

variable {A : Type} {R : A→Type} {α β γ : Type}

/-- Running one program after another, which may use its value. -/
def bind : Program A R α→(α→Program A R β)→Program A R β
  | done value,rest => rest value
  | ask request next,rest => ask request fun answer => (next answer).bind rest

instance : Monad (Program A R) where
  pure := done
  bind := bind

/-- A single request as a program. -/
def request (a : A) : Program A R (R a) :=
  ask a done

/-- A step whose failure ends the whole. -/
def attempt {ε : Type} (first : Program A R (Except ε α)) (next : α→Program A R (Except ε β)) :
    Program A R (Except ε β) :=
  first.bind fun
    | .error e => done (.error e)
    | .ok value => next value

/-- A body run for every element of a list, in order. -/
def forEach : List α→(α→Program A R Unit)→Program A R Unit
  | [],_ => done ()
  | x::xs,body => (body x).bind fun _ => forEach xs body

/-- All requests a program can issue are among some. -/
def Issues (allowed : A→Prop) : Program A R α→Prop
  | done _ => True
  | ask a next => allowed a ∧ ∀ answer,(next answer).Issues allowed

@[simp]
theorem pure_eq_done (value : α) : (pure value : Program A R α)=done value := rfl

@[simp]
theorem monad_bind_eq (program : Program A R α) (rest : α→Program A R β) :
    program >>= rest=program.bind rest := rfl

@[simp]
theorem done_bind (value : α) (rest : α→Program A R β) : (done value).bind rest=rest value := rfl

@[simp]
theorem ask_bind (a : A) (next : R a→Program A R α) (rest : α→Program A R β) :
    (ask a next).bind rest=ask a fun answer => (next answer).bind rest := rfl

@[simp]
theorem request_bind (a : A) (rest : R a→Program A R β) : (request a).bind rest=ask a rest := rfl

@[simp]
theorem bind_assoc (program : Program A R α) (second : α→Program A R β)
    (third : β→Program A R γ) :
    (program.bind second).bind third=program.bind fun value => (second value).bind third := by
  induction program with
  | done value => rfl
  | ask a next ih =>
    simp only [ask_bind]
    congr 1
    funext answer
    exact ih answer

@[simp]
theorem forEach_nil (body : α→Program A R Unit) : forEach [] body=done () := rfl

@[simp]
theorem forEach_cons (x : α) (xs : List α) (body : α→Program A R Unit) :
    forEach (x::xs) body=(body x).bind fun _ => forEach xs body := rfl

variable {allowed : A→Prop}

theorem Issues.bind {program : Program A R α} {rest : α→Program A R β}
    (first : program.Issues allowed) (second : ∀ value,(rest value).Issues allowed) :
    (program.bind rest).Issues allowed := by
  induction program with
  | done value => exact second value
  | ask a next ih => exact ⟨first.1,fun answer => ih answer (first.2 answer)⟩

theorem Issues.forEach {xs : List α} {body : α→Program A R Unit}
    (h : ∀ x∈xs,(body x).Issues allowed) : (Program.forEach xs body).Issues allowed := by
  induction xs with
  | nil => trivial
  | cons x xs ih =>
    exact (h x List.mem_cons_self).bind fun _ => ih fun y hy => h y (List.mem_cons_of_mem x hy)

theorem Issues.attempt {ε : Type} {first : Program A R (Except ε α)}
    {next : α→Program A R (Except ε β)} (hfirst : first.Issues allowed)
    (hnext : ∀ value,(next value).Issues allowed) : (first.attempt next).Issues allowed :=
  hfirst.bind fun
    | .error _ => trivial
    | .ok value => hnext value

/-- A program whose requests are those of a larger system. -/
def embed {B : Type} {S : B→Type} (name : A→B) (answer : ∀ a,S (name a)→R a) :
    Program A R α→Program B S α
  | done value => done value
  | ask a next => ask (name a) fun reply => (next (answer a reply)).embed name answer

section Embed

variable {B : Type} {S : B→Type} {name : A→B} {answer : ∀ a,S (name a)→R a}

theorem embed_bind (program : Program A R α) (rest : α→Program A R β) :
    (program.bind rest).embed name answer=
      (program.embed name answer).bind fun value => (rest value).embed name answer := by
  induction program with
  | done value => rfl
  | ask a next ih =>
    simp only [ask_bind,embed]
    exact congrArg (ask (name a)) (funext fun reply => ih (answer a reply))

theorem Issues.embed {allowed : A→Prop} {allowed' : B→Prop} {program : Program A R α}
    (h : program.Issues allowed) (himp : ∀ a,allowed a→allowed' (name a)) :
    (program.embed name answer).Issues allowed' := by
  induction program with
  | done value => trivial
  | ask a next ih => exact ⟨himp a h.1,fun reply => ih (answer a reply) (h.2 (answer a reply))⟩

end Embed

theorem Issues.mono {allowed' : A→Prop} {program : Program A R α} (h : program.Issues allowed)
    (himp : ∀ a,allowed a→allowed' a) : program.Issues allowed' := by
  induction program with
  | done value => trivial
  | ask a next ih => exact ⟨himp a h.1,fun answer => ih answer (h.2 answer)⟩

end Program

/-- What operations answer and do. The scheduler picks a choice among the
outcomes an operation has; without a result the operation has to wait. -/
structure Machine (A : Type) (R : A→Type) (T σ C : Type) where
  /-- Outcome of one atomic operation of a task. -/
  exec : T→(a : A)→C→σ→Option (R a×σ)

namespace Machine

variable {A : Type} {R : A→Type} {T σ C : Type} {α β : Type}

/-- The machine with the scheduler's choices restricted. -/
def restrict (machine : Machine A R T σ C) (permits : T → A→C→σ→Bool) :
    Machine A R T σ C where
  exec t a c w := if permits t a c w then machine.exec t a c w else none

variable {w : σ} {c : C} {a : A}

theorem restrict_exec_eq_some {machine : Machine A R T σ C} {permits : T → A→C→σ→Bool} {t : T}
    {outcome : R a×σ} : (machine.restrict permits).exec t a c w=some outcome ↔
      permits t a c w=true ∧ machine.exec t a c w=some outcome := by
  unfold restrict
  dsimp only
  split_ifs with h <;> simp [h]

/-- Complete executions of a program that runs alone as a task. -/
inductive Exec (machine : Machine A R T σ C) (t : T) : Program A R α→σ→α→σ→Prop
  | done (value : α) (w : σ) : Exec machine t (.done value) w value w
  | ask {a : A} {next : R a→Program A R α} {c : C} {w w' w'' : σ} {answer : R a} {value : α}
      (first : machine.exec t a c w=some (answer,w'))
      (rest : Exec machine t (next answer) w' value w'') :
      Exec machine t (.ask a next) w value w''

/-- States in which a program that runs alone can be stopped: before its first
request, or after any of them. -/
inductive Reaches (machine : Machine A R T σ C) (t : T) : Program A R α→σ→σ→Prop
  | here (program : Program A R α) (w : σ) : Reaches machine t program w w
  | ask {a : A} {next : R a→Program A R α} {c : C} {w w' w'' : σ} {answer : R a}
      (first : machine.exec t a c w=some (answer,w'))
      (rest : Reaches machine t (next answer) w' w'') :
      Reaches machine t (.ask a next) w w''

/-- Running a program alone on given choices. -/
def run (machine : Machine A R T σ C) (t : T) : Program A R α → List C→σ→Option (α×σ)
  | .done value,_,w => some (value,w)
  | .ask _ _,[],_ => none
  | .ask a next,c::choices,w =>
    match machine.exec t a c w with
    | none => none
    | some (answer,w') => machine.run t (next answer) choices w'

/-- Running a program alone on given choices and stopping it after them. -/
def stop (machine : Machine A R T σ C) (t : T) : Program A R α → List C→σ→Option σ
  | _,[],w => some w
  | .done _,_::_,_ => none
  | .ask a next,c::choices,w =>
    match machine.exec t a c w with
    | none => none
    | some (answer,w') => machine.stop t (next answer) choices w'

/-- Weakest precondition of a complete execution. -/
def ensures (machine : Machine A R T σ C) (t : T) :
    Program A R α→(α→σ→Prop)→σ→Prop
  | .done value,post => fun w => post value w
  | .ask a next,post => fun w => ∀ c answer w',machine.exec t a c w=some (answer,w') →
      ensures machine t (next answer) post w'

/-- Weakest precondition of stopping anywhere: an invariant in every state on
the way, and a postcondition at the end. -/
def maintains (machine : Machine A R T σ C) (t : T) (invariant : σ→Prop) :
    Program A R α→(α→σ→Prop)→σ→Prop
  | .done value,post => fun w => invariant w ∧ post value w
  | .ask a next,post => fun w => invariant w ∧ ∀ c answer w',
      machine.exec t a c w=some (answer,w')→maintains machine t invariant (next answer) post w'

variable {machine : Machine A R T σ C} {t : T}

variable {w' : σ} {program : Program A R α} {rest : α→Program A R β} {value : α}

theorem Exec.bind {w'' : σ} {result : β}
    (first : machine.Exec t program w value w') (second : machine.Exec t (rest value) w' result w'') :
    machine.Exec t (program.bind rest) w result w'' := by
  induction first with
  | done value w => exact second
  | ask hexec _ ih => exact .ask hexec (ih second)

/-- A run on chosen answers is an execution. -/
theorem run_sound (choices : List C)
    (h : machine.run t program choices w=some (value,w')) : machine.Exec t program w value w' := by
  induction program generalizing choices w with
  | done result =>
    cases h
    exact .done _ _
  | ask a next ih =>
    cases choices with
    | nil => cases h
    | cons c choices =>
      simp only [run] at h
      split at h
      · cases h
      rename_i answer w₁ hexec
      exact .ask hexec (ih answer choices h)

/-- A run that stops early reaches its state. -/
theorem stop_sound (choices : List C)
    (h : machine.stop t program choices w=some w') : machine.Reaches t program w w' := by
  induction program generalizing choices w with
  | done result =>
    cases choices with
    | nil =>
      cases h
      exact .here _ _
    | cons c choices => cases h
  | ask a next ih =>
    cases choices with
    | nil =>
      cases h
      exact .here _ _
    | cons c choices =>
      simp only [stop] at h
      split at h
      · cases h
      rename_i answer w₁ hexec
      exact .ask hexec (ih answer choices h)

variable {post : α→σ→Prop}

/-- Every execution ends in the postcondition. -/
theorem ensures_sound (h : machine.ensures t program post w)
    (hexec : machine.Exec t program w value w') : post value w' := by
  induction hexec with
  | done value w => exact h
  | ask first rest ih => exact ih (h _ _ _ first)

variable {invariant : σ→Prop}

/-- Every state on the way satisfies the invariant. -/
theorem maintains_sound (h : machine.maintains t invariant program post w)
    (hreach : machine.Reaches t program w w') : invariant w' := by
  induction hreach with
  | here program w =>
    cases program with
    | done value | ask a next => exact h.1
  | ask first rest ih => exact ih (h.2 _ _ _ first)

theorem ensures_of_forall (h : ∀ value w',post value w') :
    machine.ensures t program post w := by
  induction program generalizing w with
  | done value => exact h value w
  | ask a next ih => exact fun c answer w' _ => ih answer

variable {post' : α→σ→Prop}

theorem ensures_mono (h : machine.ensures t program post w)
    (himp : ∀ value w',post value w' → post' value w') : machine.ensures t program post' w := by
  induction program generalizing w with
  | done value => exact himp value w h
  | ask a next ih => exact fun c answer w' hstep => ih answer (h c answer w' hstep)

/-- Programs are verified one after the other. -/
theorem ensures_bind {post : β→σ→Prop} :
    machine.ensures t (program.bind rest) post w ↔
      machine.ensures t program (fun value w' => machine.ensures t (rest value) post w') w := by
  induction program generalizing w with
  | done value => exact Iff.rfl
  | ask a next ih =>
    simp only [Program.ask_bind,ensures,ih]

/-- A failed step ends the program with its error. -/
theorem ensures_attempt {ε : Type} {first : Program A R (Except ε α)}
    {next : α→Program A R (Except ε β)} {post : Except ε β→σ→Prop}
    (h : machine.ensures t first (fun answer w' => (∀ e,answer=.error e→post (.error e) w') ∧
      ∀ value,answer=.ok value→machine.ensures t (next value) post w') w) :
    machine.ensures t (first.attempt next) post w := by
  refine ensures_bind.mpr (ensures_mono h fun answer w' hanswer => ?_)
  cases answer with
  | error e => exact hanswer.1 e rfl
  | ok value => exact hanswer.2 value rfl

theorem maintains_mono {invariant' : σ→Prop}
    (h : machine.maintains t invariant program post w) (hinv : ∀ w',invariant w' → invariant' w')
    (himp : ∀ value w',post value w' → post' value w') :
    machine.maintains t invariant' program post' w := by
  induction program generalizing w with
  | done value => exact ⟨hinv w h.1,himp value w h.2⟩
  | ask a next ih =>
    exact ⟨hinv w h.1,fun c answer w' hstep => ih answer (h.2 c answer w' hstep)⟩

theorem maintains_end (h : machine.maintains t invariant program post w)
    (hexec : machine.Exec t program w value w') : invariant w' ∧ post value w' := by
  induction hexec with
  | done value w => exact h
  | ask first rest ih => exact ih (h.2 _ _ _ first)

theorem maintains_ask {next : R a→Program A R α} : machine.maintains t invariant (.ask a next) post w ↔
      invariant w ∧ machine.ensures t (.ask a .done)
        (fun answer w' => machine.maintains t invariant (next answer) post w') w := Iff.rfl

/-- Without an invariant only the end counts. -/
theorem ensures_iff_maintains :
    machine.ensures t program post w ↔ machine.maintains t (fun _ => True) program post w := by
  induction program generalizing w with
  | done value => exact (and_iff_right trivial).symm
  | ask a next ih => simp only [ensures,maintains,ih,true_and]

/-- What every allowed request keeps, the program keeps. -/
theorem maintains_of_issues {allowed : A→Prop}
    (hissues : program.Issues allowed) (hkeeps : ∀ a,allowed a→∀ w,invariant w →
      machine.ensures t (.ask a .done) (fun _ => invariant) w) (h : invariant w) :
    machine.maintains t invariant program (fun _ => invariant) w := by
  induction program generalizing w with
  | done value => exact ⟨h,h⟩
  | ask a next ih =>
    exact ⟨h,fun c answer w' hexec =>
      ih answer (hissues.2 answer) (hkeeps a hissues.1 w h c answer w' hexec)⟩

theorem maintains_bind {post : β→σ→Prop}
    (h : machine.maintains t invariant program
      (fun value w' => invariant w' → machine.maintains t invariant (rest value) post w') w) :
    machine.maintains t invariant (program.bind rest) post w := by
  induction program generalizing w with
  | done value => exact h.2 h.1
  | ask a next ih => exact ⟨h.1,fun c answer w' hstep => ih answer (h.2 c answer w' hstep)⟩

/-- Some execution ends as required. -/
def allows (machine : Machine A R T σ C) (t : T) (program : Program A R α)
    (post : α→σ→Prop) (w : σ) : Prop :=
  ∃ value w',machine.Exec t program w value w' ∧ post value w'

theorem allows_done (h : post value w) : machine.allows t (.done value) post w :=
  ⟨value,w,.done value w,h⟩

theorem allows_ask {next : R a→Program A R α} {answer : R a}
    (hexec : machine.exec t a c w=some (answer,w')) (h : machine.allows t (next answer) post w') :
    machine.allows t (.ask a next) post w := by
  obtain ⟨value,w'',hrest,hpost⟩ := h
  exact ⟨value,w'',.ask hexec hrest,hpost⟩

theorem allows_bind {post : β→σ→Prop}
    (h : machine.allows t program (fun value => machine.allows t (rest value) post) w) :
    machine.allows t (program.bind rest) post w := by
  obtain ⟨value,w',hfirst,result,w'',hsecond,hpost⟩ := h
  exact ⟨result,w'',hfirst.bind hsecond,hpost⟩

theorem allows_mono (h : machine.allows t program post w)
    (himp : ∀ value w',post value w' → post' value w') : machine.allows t program post' w := by
  obtain ⟨value,w',hexec,hpost⟩ := h
  exact ⟨value,w',hexec,himp value w' hpost⟩

/-- Some state the program can be stopped in is as required. -/
def mayReach (machine : Machine A R T σ C) (t : T) (program : Program A R α)
    (post : σ→Prop) (w : σ) : Prop :=
  ∃ w',machine.Reaches t program w w' ∧ post w'

theorem mayReach_here {post : σ→Prop} (h : post w) :
    machine.mayReach t program post w :=
  ⟨w,.here program w,h⟩

theorem mayReach_ask {next : R a→Program A R α} {post : σ→Prop} {answer : R a}
    (hexec : machine.exec t a c w=some (answer,w')) (h : machine.mayReach t (next answer) post w') :
    machine.mayReach t (.ask a next) post w := by
  obtain ⟨w'',hreach,hpost⟩ := h
  exact ⟨w'',.ask hexec hreach,hpost⟩

theorem mayReach_bind {post : σ→Prop}
    (h : machine.allows t program (fun value => machine.mayReach t (rest value) post) w) :
    machine.mayReach t (program.bind rest) post w := by
  obtain ⟨value,w',hfirst,w'',hsecond,hpost⟩ := h
  refine ⟨w'',?_,hpost⟩
  induction hfirst with
  | done value w => exact hsecond
  | ask hexec _ ih => exact .ask hexec (ih hsecond)

/-- What a program reaches is reached before its continuation. -/
theorem mayReach_left {post : σ→Prop}
    (h : machine.mayReach t program post w) : machine.mayReach t (program.bind rest) post w := by
  obtain ⟨w',hreach,hpost⟩ := h
  refine ⟨w',?_,hpost⟩
  induction hreach with
  | here program w => exact .here _ w
  | ask hexec _ ih => exact .ask hexec (ih hpost)

end Machine

end RequestPrograms
