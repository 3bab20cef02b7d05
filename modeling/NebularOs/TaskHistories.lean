import Mathlib
import NebularOs.TaskPools

/-!
# Runs with a history

A claim about a whole run often speaks of what happened on the way: in which
order changes were made, or what a task has taken and not given back. This file
adds a history to a machine. It is written by the steps and read by none of them,
so every run of the machine has one.
-/

namespace TaskHistories

open RequestPrograms TaskPools

variable {A : Type} {R : A→Type} {T σ H C ω : Type} [DecidableEq T]

/-- How a history is written. -/
structure Recorder (A : Type) (R : A→Type) (T σ H : Type) where
  /-- What a request adds, told from the states before and after it. -/
  request : T→(a : A)→R a→σ→σ→H→H
  /-- What a move of the environment adds. -/
  environment : σ→σ→H→H
  /-- What a crash leaves. -/
  crash : H→H

/-- The machine that writes a history along. -/
def recorded (machine : Machine A R T σ C) (recorder : Recorder A R T σ H) :
    Machine A R T (σ×H) C where
  exec t a c s := (machine.exec t a c s.1).map fun outcome =>
    (outcome.1,outcome.2,recorder.request t a outcome.1 s.1 outcome.2 s.2)

/-- The rules for runs with a history. -/
def recordedRules (rules : Rules A R σ ω) (recorder : Recorder A R T σ H) :
    Rules A R (σ×H) ω where
  starts s program := rules.starts s.1 program
  environment s s' := rules.environment s.1 s'.1 ∧ s'.2=recorder.environment s.1 s'.1 s.2
  crash s s' := rules.crash s.1 s'.1 ∧ s'.2=recorder.crash s.2

/-- A pool with a history. -/
def withHistory (pool : Pool A R T σ ω) (history : H) : Pool A R T (σ×H) ω :=
  ⟨(pool.world,history),pool.tasks⟩

variable {machine : Machine A R T σ C} {rules : Rules A R σ ω} {recorder : Recorder A R T σ H}

omit [DecidableEq T] in
theorem recorded_exec_eq_some {t : T} {a : A} {c : C} {s s' : σ×H} {answer : R a} :
    (recorded machine recorder).exec t a c s=some (answer,s') ↔
      machine.exec t a c s.1=some (answer,s'.1) ∧
        s'.2=recorder.request t a answer s.1 s'.1 s.2 := by
  unfold recorded
  simp only [Option.map_eq_some_iff,Prod.exists,Prod.mk.injEq]
  constructor
  · rintro ⟨answer',w',hexec,rfl,rfl⟩
    exact ⟨hexec,rfl⟩
  · rintro ⟨hexec,hnote⟩
    exact ⟨answer,s'.1,hexec,rfl,Prod.ext rfl hnote.symm⟩

/-- A pool without its history. -/
def withoutHistory (pool : Pool A R T (σ×H) ω) : Pool A R T σ ω := ⟨pool.world.1,pool.tasks⟩

/-- In a run of safe tasks, a fact about the state and the history lasts if every good
request, every move of the environment and every crash keeps it. -/
theorem history_of_reachable {Γ : Type} {discipline : Discipline A σ Γ T}
    {outcome : T→ω→σ→Γ→Prop} {fact : σ→H→Prop}
    {start pool : Pool A R T (σ×H) ω} (hrules : Respects machine rules discipline outcome)
    (hstart : Holds machine discipline outcome (withoutHistory start))
    (hrequest : ∀ {t a c answer w w' g history},discipline.inv w g→discipline.good w t a →
      machine.exec t a c w=some (answer,w')→fact w history →
        fact w' (recorder.request t a answer w w' history))
    (henvironment : ∀ {w w' history},rules.environment w w' → fact w history →
      fact w' (recorder.environment w w' history))
    (hcrash : ∀ {w w' history},rules.crash w w' → fact w history→fact w' (recorder.crash history))
    (hinit : fact start.world.1 start.world.2)
    (hreach : Reachable (recorded machine recorder) (recordedRules rules recorder) start pool) :
    Holds machine discipline outcome (withoutHistory pool) ∧ fact pool.world.1 pool.world.2 := by
  induction hreach with
  | start => exact ⟨hstart,hinit⟩
  | @step pool pool' _ hstep ih =>
    obtain ⟨hholds,hfact⟩ := ih
    cases hstep with
    | @run t a next c answer world htask hexec =>
      obtain ⟨hexec,hnote⟩ := recorded_exec_eq_some.mp hexec
      obtain ⟨g,hinv⟩ := hholds.inv
      have hgood : discipline.good pool.world.1 t a :=
        hholds.good (show (withoutHistory pool).tasks t=some (.ask a next) from htask)
      refine ⟨hholds.step hrules (.run htask hexec),?_⟩
      show fact world.1 world.2
      rw [hnote]
      exact hrequest hinv hgood hexec hfact
    | @start t program hidle hstarts => exact ⟨hholds.step hrules (.start hidle hstarts),hfact⟩
    | @environment world hmove =>
      refine ⟨hholds.step hrules (.environment hmove.1),?_⟩
      show fact world.1 world.2
      rw [hmove.2]
      exact henvironment hmove.1 hfact
    | @crash world hcrashed =>
      refine ⟨hholds.step hrules (.crash hcrashed.1),?_⟩
      show fact world.1 world.2
      rw [hcrashed.2]
      exact hcrash hcrashed.1 hfact

end TaskHistories
