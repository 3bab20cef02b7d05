import Mathlib
import NebularOs.RequestPrograms

/-!
# Interleaved tasks and crashes

Any number of tasks run their programs against one shared state, one request at
a time and in any order. New tasks may start at any moment, the environment may
move, and the process may crash, which ends every task at once.

Invariants of such runs are proved task by task. Between two requests of a task
the others may change the state, but only as the task's rely relation allows,
and they keep a shared invariant. A program is safe from a state it knew last
when each of its requests, issued in any state the others may have left, keeps
the invariant and respects what every other task relies on. Safety composes
along programs and loops, and a pool of safe tasks keeps the invariant in every
run.

Invariants may speak of bookkeeping that no program reads. It is carried along
as a ghost value, which each step may change as its proof needs.
-/

namespace TaskPools

open RequestPrograms Function

variable {A : Type} {R : A→Type} {T σ Γ C : Type} {α β ω : Type}

/-- The shared state and what each task still has to run. -/
structure Pool (A : Type) (R : A→Type) (T σ ω : Type) where
  /-- State shared by all tasks. -/
  world : σ
  /-- Rest of each started task's program. -/
  tasks : T→Option (Program A R ω)

/-- How runs may go on besides the tasks' own requests. -/
structure Rules (A : Type) (R : A→Type) (σ ω : Type) where
  /-- Programs that may be started in a state. -/
  starts : σ→Program A R ω→Prop
  /-- Moves of the environment, such as time passing. -/
  environment : σ→σ→Prop
  /-- States a crash may leave behind. -/
  crash : σ→σ→Prop

/-- One step of a pool. -/
inductive Step [DecidableEq T] (machine : Machine A R T σ C) (rules : Rules A R σ ω) :
    Pool A R T σ ω→Pool A R T σ ω→Prop
  | run {pool : Pool A R T σ ω} {t : T} {a : A} {next : R a→Program A R ω} {c : C}
      {answer : R a} {world : σ} (htask : pool.tasks t=some (.ask a next))
      (hexec : machine.exec t a c pool.world=some (answer,world)) :
      Step machine rules pool ⟨world,update pool.tasks t (some (next answer))⟩
  | start {pool : Pool A R T σ ω} {t : T} {program : Program A R ω}
      (hidle : pool.tasks t=none) (hstarts : rules.starts pool.world program) :
      Step machine rules pool ⟨pool.world,update pool.tasks t (some program)⟩
  | environment {pool : Pool A R T σ ω} {world : σ}
      (hmove : rules.environment pool.world world) : Step machine rules pool ⟨world,pool.tasks⟩
  | crash {pool : Pool A R T σ ω} {world : σ} (hcrash : rules.crash pool.world world) :
      Step machine rules pool ⟨world,fun _ => none⟩

/-- Pools that some run leads to. -/
inductive Reachable [DecidableEq T] (machine : Machine A R T σ C) (rules : Rules A R σ ω)
    (start : Pool A R T σ ω) : Pool A R T σ ω→Prop
  | start : Reachable machine rules start start
  | step {pool pool' : Pool A R T σ ω} (hreach : Reachable machine rules start pool)
      (hstep : Step machine rules pool pool') : Reachable machine rules start pool'

/-- A task may run to its end while all others wait. -/
theorem Reachable.run [DecidableEq T] {machine : Machine A R T σ C} {rules : Rules A R σ ω}
    {start pool : Pool A R T σ ω} (hreach : Reachable machine rules start pool) {t : T}
    {program : Program A R ω} (htask : pool.tasks t=some program) {choices : List C} {value : ω}
    {world : σ} (hrun : machine.run t program choices pool.world=some (value,world)) :
    Reachable machine rules start ⟨world,update pool.tasks t (some (.done value))⟩ := by
  induction choices generalizing pool program with
  | nil =>
    cases program with
    | done result =>
      cases hrun
      rwa [← htask,update_eq_self]
    | ask a next => cases hrun
  | cons choice choices ih =>
    cases program with
    | done result =>
      cases hrun
      rwa [← htask,update_eq_self]
    | ask a next =>
      rw [Machine.run] at hrun
      cases hexec : machine.exec t a choice pool.world with
      | none =>
        rw [hexec] at hrun
        cases hrun
      | some outcome =>
        rw [hexec] at hrun
        have hrest := ih (.step hreach (.run htask hexec)) (update_self t _ _) hrun
        rwa [update_idem] at hrest

/-- Requests of started tasks, in a given order and on given choices. -/
def Pool.runs [DecidableEq T] (machine : Machine A R T σ C) :
    List (T×C)→Pool A R T σ ω→Option (Pool A R T σ ω)
  | [],pool => some pool
  | (t,c)::moves,pool =>
    match pool.tasks t with
    | some (.ask a next) =>
      match machine.exec t a c pool.world with
      | some (answer,world) =>
        Pool.runs machine moves ⟨world,update pool.tasks t (some (next answer))⟩
      | none => none
    | _ => none

variable {pool : Pool A R T σ ω}

theorem step_of_runs [DecidableEq T] {machine : Machine A R T σ C} {rules : Rules A R σ ω}
    {pool' : Pool A R T σ ω} {move : T×C} {moves : List (T×C)}
    (hruns : pool.runs machine (move::moves)=some pool') :
    ∃ between,Step machine rules pool between ∧ between.runs machine moves=some pool' := by
  obtain ⟨t,c⟩ := move
  simp only [Pool.runs] at hruns
  split at hruns
  · rename_i a next htask
    split at hruns
    · rename_i answer world hexec
      exact ⟨_,.run htask hexec,hruns⟩
    · cases hruns
  · cases hruns

/-- Chosen moves lead to reachable pools. -/
theorem Reachable.runs [DecidableEq T] {machine : Machine A R T σ C} {rules : Rules A R σ ω}
    {start pool' : Pool A R T σ ω} (hreach : Reachable machine rules start pool)
    {moves : List (T×C)} (hruns : pool.runs machine moves=some pool') :
    Reachable machine rules start pool' := by
  induction moves generalizing pool with
  | nil =>
    cases hruns
    exact hreach
  | cons move moves ih =>
    obtain ⟨between,hstep,hrest⟩ := step_of_runs hruns
    exact ih (.step hreach hstep) hrest

/-- A shared invariant, what each task relies on, and what has to be true
whenever a task issues a request. -/
structure Discipline (A σ Γ T : Type) where
  /-- Invariant of the shared state and the ghost value. -/
  inv : σ→Γ→Prop
  /-- Changes by others that a task puts up with. -/
  rely : T→σ→Γ→σ→Γ→Prop
  /-- What holds when a task issues a request. -/
  good : σ→T → A→Prop
  /-- A task puts up with no change. -/
  rely_refl : ∀ t w g,rely t w g w g
  /-- Changes a task puts up with may follow each other. -/
  rely_trans : ∀ {t w g w' g' w'' g''},rely t w g w' g' → rely t w' g' w'' g'' →
    rely t w g w'' g''

/-- A change by one task that keeps the invariant and that all others put up
with. -/
def Discipline.Keeps (discipline : Discipline A σ Γ T) (t : T) (w : σ) (g : Γ) (w' : σ)
    (g' : Γ) : Prop :=
  discipline.inv w' g' ∧ ∀ u,u≠t→discipline.rely u w g w' g'

/-- Safety of a program from the state its task knew last. -/
def safe (machine : Machine A R T σ C) (discipline : Discipline A σ Γ T) (t : T) :
    Program A R α→(α→σ→Γ→Prop)→σ→Γ→Prop
  | .done value,post => fun known ghost => post value known ghost
  | .ask a next,post => fun known ghost => ∀ w g,discipline.inv w g →
      discipline.rely t known ghost w g→discipline.good w t a ∧
        ∀ c answer w',machine.exec t a c w=some (answer,w') →
          ∃ g',discipline.Keeps t w g w' g' ∧ safe machine discipline t (next answer) post w' g'

variable {machine : Machine A R T σ C} {discipline : Discipline A σ Γ T} {t : T}

variable {ghost : Γ} {known : σ}

theorem safe_mono {program : Program A R α} {post post' : α→σ→Γ→Prop}
    (h : safe machine discipline t program post known ghost)
    (himp : ∀ value w g,post value w g→post' value w g) :
    safe machine discipline t program post' known ghost := by
  induction program generalizing known ghost with
  | done value => exact himp value known ghost h
  | ask a next ih =>
    intro w g hinv hrely
    obtain ⟨hgood,hsteps⟩ := h w g hinv hrely
    refine ⟨hgood,fun c answer w' hexec => ?_⟩
    obtain ⟨g',hkeeps,hrest⟩ := hsteps c answer w' hexec
    exact ⟨g',hkeeps,ih answer hrest⟩

/-- The continuation starts from what the program established. -/
theorem safe_bind {program : Program A R α} {rest : α→Program A R β} {post : β→σ→Γ→Prop}
    (h : safe machine discipline t program
      (fun value w g => safe machine discipline t (rest value) post w g) known ghost) :
    safe machine discipline t (program.bind rest) post known ghost := by
  induction program generalizing known ghost with
  | done value => exact h
  | ask a next ih =>
    intro w g hinv hrely
    obtain ⟨hgood,hsteps⟩ := h w g hinv hrely
    refine ⟨hgood,fun c answer w' hexec => ?_⟩
    obtain ⟨g',hkeeps,hrest⟩ := hsteps c answer w' hexec
    exact ⟨g',hkeeps,ih answer hrest⟩

/-- What every allowed request keeps, the program keeps. -/
theorem safe_of_issues {program : Program A R α} {allowed : A→Prop} {carried : σ→Γ→Prop}
    (hissues : program.Issues allowed)
    (hlasts : ∀ {w g w' g'},carried w g→discipline.rely t w g w' g' → carried w' g')
    (hstep : ∀ a,allowed a→∀ w g,discipline.inv w g → carried w g→discipline.good w t a ∧
      ∀ c answer w',machine.exec t a c w=some (answer,w') →
        ∃ g',discipline.Keeps t w g w' g' ∧ carried w' g') (h : carried known ghost) :
    safe machine discipline t program (fun _ => carried) known ghost := by
  induction program generalizing known ghost with
  | done value => exact h
  | ask a next ih =>
    intro w g hinv hrely
    obtain ⟨hgood,houtcomes⟩ := hstep a hissues.1 w g hinv (hlasts h hrely)
    refine ⟨hgood,fun c answer w' hexec => ?_⟩
    obtain ⟨g',hkeeps,hcarried⟩ := houtcomes c answer w' hexec
    exact ⟨g',hkeeps,ih answer (hissues.2 answer) hcarried⟩

/-- A loop keeps what its body carries from one element to the next. -/
theorem safe_forEach {xs : List α} {body : α→Program A R Unit} {carried : List α→σ→Γ→Prop}
    (hbody : ∀ x rest w g,carried (x::rest) w g →
      safe machine discipline t (body x) (fun _ => carried rest) w g)
    (hinit : carried xs known ghost) :
    safe machine discipline t (Program.forEach xs body) (fun _ => carried []) known ghost := by
  induction xs generalizing known ghost with
  | nil => exact hinit
  | cons x xs ih =>
    rw [Program.forEach_cons]
    exact safe_bind (safe_mono (hbody x xs known ghost hinit) fun _ w g hw => ih hw)

/-- A pool in which the invariant holds and every started task is safe from a
state since which only changes happened that it puts up with. Finished tasks
have the outcome that is asked of them. -/
def Holds (machine : Machine A R T σ C) (discipline : Discipline A σ Γ T)
    (outcome : T→ω→σ→Γ→Prop) (pool : Pool A R T σ ω) : Prop :=
  ∃ g,discipline.inv pool.world g ∧ ∀ t program,pool.tasks t=some program →
    ∃ known ghost,discipline.rely t known ghost pool.world g ∧
      safe machine discipline t program (outcome t) known ghost

/-- What the rules must respect for the invariant to last. -/
structure Respects (machine : Machine A R T σ C) (rules : Rules A R σ ω)
    (discipline : Discipline A σ Γ T) (outcome : T→ω→σ→Γ→Prop) : Prop where
  /-- Programs that may start are safe. -/
  starts : ∀ w g t program,discipline.inv w g → rules.starts w program →
    safe machine discipline t program (outcome t) w g
  /-- The environment keeps the invariant and does what all tasks put up with. -/
  environment : ∀ w g w',rules.environment w w' → discipline.inv w g →
    discipline.inv w' g ∧ ∀ t,discipline.rely t w g w' g
  /-- A crash keeps the invariant. -/
  crash : ∀ w g w',rules.crash w w' → discipline.inv w g→∃ g',discipline.inv w' g'

variable {outcome : T→ω→σ→Γ→Prop}

/-- One step of a run keeps a pool of safe tasks. -/
theorem Holds.step [DecidableEq T] {rules : Rules A R σ ω} {pool pool' : Pool A R T σ ω}
    (hrules : Respects machine rules discipline outcome)
    (h : Holds machine discipline outcome pool) (hstep : Step machine rules pool pool') :
    Holds machine discipline outcome pool' := by
  obtain ⟨g,hinv,htasks⟩ := h
  cases hstep with
  | @run t a next c answer world htask hexec =>
    obtain ⟨known,ghost,hrely,hsafe⟩ := htasks t _ htask
    obtain ⟨_,hsteps⟩ := hsafe pool.world g hinv hrely
    obtain ⟨g',⟨hinv',hothers⟩,hrest⟩ := hsteps c answer world hexec
    refine ⟨g',hinv',fun u program hu => ?_⟩
    by_cases hut : u=t
    · subst hut
      obtain rfl : next answer=program := by simpa using hu
      exact ⟨world,g',discipline.rely_refl u world g',hrest⟩
    · obtain ⟨known',ghost',hrely',hsafe'⟩ := htasks u program (by simpa [hut] using hu)
      exact ⟨known',ghost',discipline.rely_trans hrely' (hothers u hut),hsafe'⟩
  | @start t program hidle hstarts =>
    refine ⟨g,hinv,fun u program' hu => ?_⟩
    by_cases hut : u=t
    · subst hut
      obtain rfl : program=program' := by simpa using hu
      exact ⟨pool.world,g,discipline.rely_refl u _ g,hrules.starts _ g u program hinv hstarts⟩
    · exact htasks u program' (by simpa [hut] using hu)
  | environment hmove =>
    obtain ⟨hinv',hrely'⟩ := hrules.environment _ g _ hmove hinv
    refine ⟨g,hinv',fun u program hu => ?_⟩
    obtain ⟨known,ghost,hrely,hsafe⟩ := htasks u program hu
    exact ⟨known,ghost,discipline.rely_trans hrely (hrely' u),hsafe⟩
  | crash hcrash =>
    obtain ⟨g',hinv'⟩ := hrules.crash _ g _ hcrash hinv
    exact ⟨g',hinv',fun u program hu => by cases hu⟩

/-- What holds at the start holds in every run. -/
theorem Holds.reachable [DecidableEq T] {rules : Rules A R σ ω} {start : Pool A R T σ ω}
    (hrules : Respects machine rules discipline outcome)
    (hstart : Holds machine discipline outcome start) (hreach : Reachable machine rules start pool) :
    Holds machine discipline outcome pool := by
  induction hreach with
  | start => exact hstart
  | step _ hstep ih => exact ih.step hrules hstep

theorem Holds.good {a : A} {next : R a→Program A R ω} (h : Holds machine discipline outcome pool)
    (htask : pool.tasks t=some (.ask a next)) : discipline.good pool.world t a := by
  obtain ⟨g,hinv,htasks⟩ := h
  obtain ⟨known,ghost,hrely,hsafe⟩ := htasks t _ htask
  exact (hsafe pool.world g hinv hrely).1

theorem Holds.inv (h : Holds machine discipline outcome pool) :
    ∃ g,discipline.inv pool.world g := by
  obtain ⟨g,hinv,_⟩ := h
  exact ⟨g,hinv⟩

/-- A finished task has kept its promise. -/
theorem Holds.ended {value : ω} (h : Holds machine discipline outcome pool)
    (htask : pool.tasks t=some (.done value)) :
    ∃ g known ghost,discipline.rely t known ghost pool.world g ∧ outcome t value known ghost := by
  obtain ⟨g,_,htasks⟩ := h
  obtain ⟨known,ghost,hrely,hdone⟩ := htasks t _ htask
  exact ⟨g,known,ghost,hrely,hdone⟩

theorem Holds.idle {world : σ} {g : Γ} (hinv : discipline.inv world g) :
    Holds machine discipline outcome (⟨world,fun _ => none⟩ : Pool A R T σ ω) :=
  ⟨g,hinv,fun _ _ htask => by cases htask⟩

/-- Something more is true whenever a program issues a request, given what its task puts up with
and what is true then anyway. -/
def vouched (machine : Machine A R T σ C) (discipline : Discipline A σ Γ T) (t : T)
    (extra : σ→A→Prop) : Program A R α→σ→Γ→Prop
  | .done _ => fun _ _ => True
  | .ask a next => fun known ghost => ∀ w g,discipline.inv w g→discipline.rely t known ghost w g →
      discipline.good w t a→extra w a ∧ ∀ c answer w',machine.exec t a c w=some (answer,w') →
        ∀ g',vouched machine discipline t extra (next answer) w' g'

/-- A discipline that asks for more of the requests of each task. -/
def Discipline.with (discipline : Discipline A σ Γ T) (extra : T→σ→A→Prop) :
    Discipline A σ Γ T :=
  { discipline with good := fun w t a => discipline.good w t a ∧ extra t w a }

/-- Vouching for its requests makes a safe program keep more. -/
theorem safe_of_vouched {extra : T→σ→A→Prop} {program : Program A R α} {post : α→σ→Γ→Prop}
    (hsafe : safe machine discipline t program post known ghost)
    (h : vouched machine discipline t (extra t) program known ghost) :
    safe machine (discipline.with extra) t program post known ghost := by
  induction program generalizing known ghost with
  | done value => exact hsafe
  | ask a next ih =>
    intro w g hinv hrely
    obtain ⟨hgood,hsteps⟩ := hsafe w g hinv hrely
    obtain ⟨hextra,hrest⟩ := h w g hinv hrely hgood
    refine ⟨⟨hgood,hextra⟩,fun c answer w' hexec => ?_⟩
    obtain ⟨g',hkeeps,hnext⟩ := hsteps c answer w' hexec
    exact ⟨g',hkeeps,ih answer hnext (hrest c answer w' hexec g')⟩

theorem vouched_of_issues {extra : σ→A→Prop} {program : Program A R α}
    (hissues : program.Issues fun a => ∀ w,extra w a) :
    vouched machine discipline t extra program known ghost := by
  induction program generalizing known ghost with
  | done value => trivial
  | ask a next ih =>
    exact fun w g _ _ _ => ⟨hissues.1 w,fun c answer w' _ g' => ih answer (hissues.2 answer)⟩

end TaskPools
