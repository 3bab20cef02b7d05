import Mathlib
import NebularOs.WritePath

/-!
# Rules for the engine's operations

Weakest preconditions of single operations, for a program that runs alone. Which
operations may fail is a parameter: an undo that is assumed to succeed has one
outcome, an operation that may fail has two. With these rules a program is
executed symbolically by rewriting.
-/

namespace NebularOs.OperationRules

open RequestPrograms EngineState WritePath Function

variable {K P B α : Type} [DecidableEq K] [DecidableEq P]

/-- The engine with failures restricted to some operations. -/
def guarded (mayFail : Action K P B→Bool) :
    Machine (Action K P B) Answer ℕ (World K P B) (Choice) :=
  (machine K P B).restrict fun _ a c _ => c != .fail || mayFail a

theorem guarded_true : guarded (fun _ => true)=machine K P B := by
  unfold guarded Machine.restrict
  simp only [Bool.or_true,if_true]

variable {mayFail : Action K P B→Bool} {t : ℕ} {w : World K P B} {post : α→World K P B→Prop}

/-- Every run of a program ends as asked. -/
abbrev wp (mayFail : Action K P B→Bool) (t : ℕ) (program : Prog K P B α)
    (post : α→World K P B→Prop) (w : World K P B) : Prop :=
  (guarded mayFail).ensures t program post w

variable {a : Action K P B}

theorem guarded_exec_eq_some {c : Choice} {outcome : Answer a×World K P B} :
    (guarded mayFail).exec t a c w=some outcome ↔
      (c=.fail→mayFail a=true) ∧ exec t a c w=some outcome := by
  unfold guarded
  rw [Machine.restrict_exec_eq_some]
  simp only [Bool.or_eq_true,bne_iff_ne,ne_eq,imp_iff_not_or]
  exact Iff.rfl

theorem allows_ok {next : Answer a→Prog K P B α} {answer : Answer a} {w' : World K P B}
    (hexec : exec t a .ok w=some (answer,w')) (h : (guarded mayFail).allows t (next answer) post w') :
    (guarded mayFail).allows t (.ask a next) post w :=
  Machine.allows_ask (guarded_exec_eq_some.mpr ⟨by simp,hexec⟩) h

theorem mayReach_ok {next : Answer a→Prog K P B α} {answer : Answer a}
    {holds : World K P B→Prop} {w' : World K P B} (hexec : exec t a .ok w=some (answer,w'))
    (h : (guarded mayFail).mayReach t (next answer) holds w') :
    (guarded mayFail).mayReach t (.ask a next) holds w :=
  Machine.mayReach_ask (guarded_exec_eq_some.mpr ⟨by simp,hexec⟩) h

theorem ensures_always (a : Action K P B) {next : Answer a→Prog K P B α}
    (outcome : Answer a×World K P B) (h : ∀ c,exec t a c w=always c outcome) :
    wp mayFail t (.ask a next) post w ↔ wp mayFail t (next outcome.1) post outcome.2 := by
  constructor
  · intro hensures
    refine hensures .ok outcome.1 outcome.2 (guarded_exec_eq_some.mpr ⟨?_,?_⟩)
    · simp
    · rw [h .ok]
      rfl
  · intro hensures c answer w' hexec
    have hsome := (guarded_exec_eq_some.mp hexec).2
    rw [h c] at hsome
    cases c <;> simp only [always,Option.some.injEq,reduceCtorEq] at hsome
    subst hsome
    exact hensures

theorem ensures_fallible (a : Action K P B) {next : Answer a→Prog K P B α}
    (failed outcome : Answer a×World K P B)
    (h : ∀ c,exec t a c w=fallible c failed (some outcome)) :
    wp mayFail t (.ask a next) post w ↔
      (mayFail a=true→wp mayFail t (next failed.1) post failed.2) ∧
        wp mayFail t (next outcome.1) post outcome.2 := by
  constructor
  · intro hensures
    constructor
    · intro hmay
      refine hensures .fail failed.1 failed.2 (guarded_exec_eq_some.mpr ⟨fun _ => hmay,?_⟩)
      rw [h .fail]
      rfl
    · refine hensures .ok outcome.1 outcome.2 (guarded_exec_eq_some.mpr ⟨?_,?_⟩)
      · simp
      · rw [h .ok]
        rfl
  · rintro ⟨hfailed,houtcome⟩ c answer w' hexec
    obtain ⟨hmay,hsome⟩ := guarded_exec_eq_some.mp hexec
    rw [h c] at hsome
    cases c <;> simp only [fallible,Option.some.injEq,reduceCtorEq] at hsome
    · subst hsome
      exact houtcome
    · subst hsome
      exact hfailed (hmay rfl)

theorem ensures_when (a : Action K P B) {next : Answer a→Prog K P B α} (enabled : Prop)
    [Decidable enabled] (outcome : Answer a×World K P B)
    (h : ∀ c,exec t a c w=if enabled then always c outcome else none) :
    wp mayFail t (.ask a next) post w ↔ (enabled→wp mayFail t (next outcome.1) post outcome.2) := by
  by_cases henabled : enabled
  · simpa [henabled] using ensures_always a outcome fun c => (h c).trans (if_pos henabled)
  · simp only [henabled,false_implies,iff_true]
    intro c answer w' hexec
    have hsome := (guarded_exec_eq_some.mp hexec).2
    simp [h,henabled] at hsome

section Single

variable {key : K} {path : P} {file : Scratch} {next : Bool→Prog K P B α}

@[simp]
theorem ensures_done {value : α} :
    wp mayFail t (.done value : Prog K P B α) post w ↔ post value w := Iff.rfl

@[simp]
theorem ensures_loadInFlight {next : Int64→Prog K P B α} :
    wp mayFail t (.ask .loadInFlight next) post w ↔ wp mayFail t (next w.inFlight) post w :=
  ensures_always .loadInFlight (w.inFlight,w) fun _ => rfl

@[simp]
theorem ensures_addInFlight {bytes : Int64} {next : Unit→Prog K P B α} :
    wp mayFail t (.ask (.addInFlight bytes) next) post w ↔
      wp mayFail t (next ()) post { w with inFlight := w.inFlight+bytes } :=
  ensures_always (.addInFlight bytes) ((),{ w with inFlight := w.inFlight+bytes }) fun _ => rfl

@[simp]
theorem ensures_subInFlight {bytes : Int64} {next : Unit→Prog K P B α} :
    wp mayFail t (.ask (.subInFlight bytes) next) post w ↔
      wp mayFail t (next ()) post { w with inFlight := w.inFlight-bytes } :=
  ensures_always (.subInFlight bytes) ((),{ w with inFlight := w.inFlight-bytes }) fun _ => rfl

@[simp]
theorem ensures_unixNow {next : ℤ→Prog K P B α} : wp mayFail t (.ask .unixNow next) post w ↔
      wp mayFail t (next (Int.ofNat (w.clock/1000000000))) post w :=
  ensures_always .unixNow (Int.ofNat (w.clock/1000000000),w) fun _ => rfl

@[simp]
theorem ensures_freshId {next : ℕ→Prog K P B α} : wp mayFail t (.ask .freshId next) post w ↔
      wp mayFail t (next w.nextId) post { w with nextId := w.nextId+1 } :=
  ensures_always .freshId (w.nextId,_) fun _ => rfl

@[simp]
theorem ensures_pathExists : wp mayFail t (.ask (.pathExists path) next) post w ↔
      wp mayFail t (next (w.blobs.lookup path).isSome) post w :=
  ensures_always (.pathExists path) ((w.blobs.lookup path).isSome,w) fun _ => rfl

@[simp]
theorem ensures_scratchExists : wp mayFail t (.ask (.scratchExists file) next) post w ↔
      wp mayFail t (next (w.scratch.lookup file).isSome) post w :=
  ensures_always (.scratchExists file) ((w.scratch.lookup file).isSome,w) fun _ => rfl

@[simp]
theorem ensures_hookBefore : wp mayFail t (.ask (.hookBefore key) next) post w ↔
      (mayFail (.hookBefore key)=true→wp mayFail t (next false) post w) ∧
        wp mayFail t (next true) post w :=
  ensures_fallible (.hookBefore key) (false,w) (true,w) fun _ => rfl

@[simp]
theorem ensures_hookAfter : wp mayFail t (.ask (.hookAfter key) next) post w ↔
      (mayFail (.hookAfter key)=true→wp mayFail t (next false) post w) ∧
        wp mayFail t (next true) post w :=
  ensures_fallible (.hookAfter key) (false,w) (true,w) fun _ => rfl

@[simp]
theorem ensures_fetchActive {next : Option (Option ObjectMetadata)→Prog K P B α} :
    wp mayFail t (.ask (.fetchActive key) next) post w ↔
      (mayFail (.fetchActive key)=true→wp mayFail t (next none) post w) ∧
        wp mayFail t (next (some (w.activeRow key))) post w :=
  ensures_fallible (.fetchActive key) (none,w) (some (w.activeRow key),w) fun _ => rfl

@[simp]
theorem ensures_totalBytes {next : Option ℤ→Prog K P B α} :
    wp mayFail t (.ask .totalBytes next) post w ↔
      (mayFail .totalBytes=true→wp mayFail t (next none) post w) ∧
        wp mayFail t (next (if -2^63≤w.activeBytes ∧ w.activeBytes<2^63 then
          some w.activeBytes else none)) post w :=
  ensures_fallible .totalBytes (none,w) (_,w) fun _ => rfl

@[simp]
theorem ensures_upsertObject {row : ObjectMetadata} :
    wp mayFail t (.ask (.upsertObject key row) next) post w ↔
      (mayFail (.upsertObject key row)=true→wp mayFail t (next false) post w) ∧
        wp mayFail t (next true) post { w with rows := w.rows.insert key (w.upserted key row) } :=
  ensures_fallible (.upsertObject key row) (false,w) (true,_) fun _ => rfl

@[simp]
theorem ensures_readBlob {next : Option B→Prog K P B α} :
    wp mayFail t (.ask (.readBlob path) next) post w ↔
      (mayFail (.readBlob path)=true→wp mayFail t (next none) post w) ∧
        wp mayFail t (next ((w.blobs.lookup path).map StoredFile.content)) post w :=
  ensures_fallible (.readBlob path) (none,w) (_,w) fun _ => rfl

@[simp]
theorem ensures_createDirAll : wp mayFail t (.ask .createDirAll next) post w ↔
      (mayFail .createDirAll=true→wp mayFail t (next false) post w) ∧
        wp mayFail t (next true) post w :=
  ensures_fallible .createDirAll (false,w) (true,w) fun _ => rfl

variable {role : Role}

@[simp]
theorem ensures_sync : wp mayFail t (.ask (.sync role) next) post w ↔
      (mayFail (.sync role)=true→wp mayFail t (next false) post w) ∧
        wp mayFail t (next true) post w :=
  ensures_fallible (.sync role) (false,w) (true,w) fun _ => rfl

@[simp]
theorem ensures_removeScratch : wp mayFail t (.ask (.removeScratch role file) next) post w ↔
      (mayFail (.removeScratch role file)=true→wp mayFail t (next false) post w) ∧
        wp mayFail t (next (w.scratch.lookup file).isSome) post
          { w with scratch := w.scratch.erase file } :=
  ensures_fallible (.removeScratch role file) (false,w) (_,_) fun _ => rfl

@[simp]
theorem ensures_removeBlob : wp mayFail t (.ask (.removeBlob path) next) post w ↔
      (mayFail (.removeBlob path)=true→wp mayFail t (next false) post w) ∧
        wp mayFail t (next (w.blobs.lookup path).isSome) post
          { w with blobs := w.blobs.erase path } :=
  ensures_fallible (.removeBlob path) (false,w) (_,_) fun _ => rfl

variable {id : ℕ}

@[simp]
theorem ensures_createIntent : wp mayFail t (.ask (.createIntent id) next) post w ↔
      (mayFail (.createIntent id)=true→wp mayFail t (next false) post w) ∧
        wp mayFail t (next true) post { w with intents := w.intents.insert id .torn } :=
  ensures_fallible (.createIntent id) (false,w) (true,_) fun _ => rfl

@[simp]
theorem ensures_fillIntent {intent : SwapIntent K} :
    wp mayFail t (.ask (.fillIntent id intent) next) post w ↔
      (mayFail (.fillIntent id intent)=true→wp mayFail t (next false) post w) ∧
        wp mayFail t (next true) post { w with intents := w.intents.insert id (.written intent) } :=
  ensures_fallible (.fillIntent id intent) (false,w) (true,_) fun _ => rfl

@[simp]
theorem ensures_removeIntent : wp mayFail t (.ask (.removeIntent role id) next) post w ↔
      (mayFail (.removeIntent role id)=true→wp mayFail t (next false) post w) ∧
        wp mayFail t (next (w.intents.lookup id).isSome) post
          { w with intents := w.intents.erase id } :=
  ensures_fallible (.removeIntent role id) (false,w) (_,_) fun _ => rfl

@[simp]
theorem ensures_incRef {block : BlockHash} : wp mayFail t (.ask (.incRef block) next) post w ↔
      (mayFail (.incRef block)=true→wp mayFail t (next false) post w) ∧
        wp mayFail t (next true) post (w.incRef block) :=
  ensures_fallible (.incRef block) (false,w) (true,_) fun _ => rfl

@[simp]
theorem ensures_decRef {block : BlockHash} {now : ℤ} :
    wp mayFail t (.ask (.decRef block now) next) post w ↔
      (mayFail (.decRef block now)=true→wp mayFail t (next false) post w) ∧
        wp mayFail t (next true) post (w.decRef block now) :=
  ensures_fallible (.decRef block now) (false,w) (true,_) fun _ => rfl

@[simp]
theorem ensures_lockCapacity {next : Unit→Prog K P B α} :
    wp mayFail t (.ask .lockCapacity next) post w ↔
      (w.capacityLock=none→wp mayFail t (next ()) post { w with capacityLock := some t }) :=
  ensures_when .lockCapacity _ _ fun _ => rfl

@[simp]
theorem ensures_unlockCapacity {next : Unit→Prog K P B α} :
    wp mayFail t (.ask .unlockCapacity next) post w ↔
      (w.capacityLock=some t→wp mayFail t (next ()) post { w with capacityLock := none }) :=
  ensures_when .unlockCapacity _ _ fun _ => rfl

@[simp]
theorem ensures_copyFile : wp mayFail t (.ask (.copyFile path file) next) post w ↔
      (mayFail (.copyFile path file)=true→wp mayFail t (next false) post w) ∧
        match w.blobs.lookup path with
        | some source => wp mayFail t (next true) post
            { w with scratch := w.scratch.insert file ⟨w.freshInode,source.content⟩ }
        | none => wp mayFail t (next false) post w := by
  cases hlookup : w.blobs.lookup path with
  | none =>
    exact ensures_fallible (.copyFile path file) (false,w) (false,w) fun c => by
      simp only [exec,hlookup]
  | some source =>
    exact ensures_fallible (.copyFile path file) (false,w) (true,_) fun c => by
      simp only [exec,hlookup]

@[simp]
theorem ensures_copyScratch {target : Scratch} :
    wp mayFail t (.ask (.copyScratch role file target) next) post w ↔
      (mayFail (.copyScratch role file target)=true →
        wp mayFail t (next false) post w) ∧ match w.scratch.lookup file with
        | some source => wp mayFail t (next true) post
            { w with scratch := w.scratch.insert target ⟨w.freshInode,source.content⟩ }
        | none => wp mayFail t (next false) post w := by
  cases hlookup : w.scratch.lookup file with
  | none =>
    exact ensures_fallible (.copyScratch role file target) (false,w) (false,w) fun c => by
      simp only [exec,hlookup]
  | some source =>
    exact ensures_fallible (.copyScratch role file target) (false,w) (true,_) fun c => by
      simp only [exec,hlookup]

@[simp]
theorem ensures_readIntent {next : Option (SwapIntent K)→Prog K P B α} :
    wp mayFail t (.ask (.readIntent id) next) post w ↔
      (mayFail (.readIntent id)=true→wp mayFail t (next none) post w) ∧
        wp mayFail t (next (w.recordAt id)) post w :=
  ensures_fallible (.readIntent id) (none,w) (w.recordAt id,w) fun _ => rfl

@[simp]
theorem ensures_listIntents {next : Option (List ℕ)→Prog K P B α} :
    wp mayFail t (.ask .listIntents next) post w ↔
      (mayFail .listIntents=true→wp mayFail t (next none) post w) ∧
        ∀ order,order.Perm w.intents.keys → wp mayFail t (next (some order)) post w := by
  constructor
  · intro hensures
    refine ⟨fun hmay => ?_,fun order hperm => ?_⟩
    · exact hensures .fail none w (guarded_exec_eq_some.mpr ⟨fun _ => hmay,rfl⟩)
    · exact hensures (.ids order) (some order) w (guarded_exec_eq_some.mpr ⟨by simp,if_pos hperm⟩)
  · rintro ⟨hfailed,hlisted⟩ c answer w' hexec
    obtain ⟨hmay,hsome⟩ := guarded_exec_eq_some.mp hexec
    cases c <;> simp only [exec,reduceCtorEq,Option.some.injEq,Prod.mk.injEq,
      Option.ite_none_right_eq_some] at hsome
    · obtain ⟨rfl,rfl⟩ := hsome
      exact hfailed (hmay rfl)
    · obtain ⟨hperm,rfl,rfl⟩ := hsome
      exact hlisted _ hperm

@[simp]
theorem ensures_lockKey {stripe : ℕ} {next : Unit→Prog K P B α} :
    wp mayFail t (.ask (.lockKey stripe) next) post w ↔ (w.keyLocks stripe=none →
      wp mayFail t (next ()) post { w with keyLocks := update w.keyLocks stripe (some t) }) :=
  ensures_when (.lockKey stripe) _ _ fun _ => rfl

@[simp]
theorem ensures_unlockKey {stripe : ℕ} {next : Unit→Prog K P B α} :
    wp mayFail t (.ask (.unlockKey stripe) next) post w ↔ (w.keyLocks stripe=some t →
      wp mayFail t (next ()) post { w with keyLocks := update w.keyLocks stripe none }) :=
  ensures_when (.unlockKey stripe) _ _ fun _ => rfl

/-- A move has three outcomes: failure, another device, and what it does. -/
theorem ensures_move {a : Action K P B} {next : Answer a→Prog K P B α}
    (near : Prop) [Decidable near] (failed crossed outcome : Answer a×World K P B)
    (h : ∀ c,exec t a c w=match c with
      | .fail => some failed
      | .crossDevice => if near then none else some crossed
      | .ok => some outcome
      | _ => none) :
    wp mayFail t (.ask a next) post w ↔
      (mayFail a=true→wp mayFail t (next failed.1) post failed.2) ∧
        (¬near→wp mayFail t (next crossed.1) post crossed.2) ∧
          wp mayFail t (next outcome.1) post outcome.2 := by
  constructor
  · intro hensures
    refine ⟨fun hmay => ?_,fun hfar => ?_,?_⟩
    · exact hensures .fail failed.1 failed.2 (guarded_exec_eq_some.mpr ⟨fun _ => hmay,h .fail⟩)
    · exact hensures .crossDevice crossed.1 crossed.2
        (guarded_exec_eq_some.mpr ⟨by simp,(h .crossDevice).trans (if_neg hfar)⟩)
    · exact hensures .ok outcome.1 outcome.2 (guarded_exec_eq_some.mpr ⟨by simp,h .ok⟩)
  · rintro ⟨hfailed,hcrossed,houtcome⟩ c answer w' hexec
    obtain ⟨hmay,hsome⟩ := guarded_exec_eq_some.mp hexec
    rw [h c] at hsome
    cases c <;> simp only [Option.some.injEq,reduceCtorEq,Option.ite_none_left_eq_some] at hsome
    · subst hsome
      exact houtcome
    · subst hsome
      exact hfailed (hmay rfl)
    · obtain ⟨hfar,rfl⟩ := hsome
      exact hcrossed hfar

@[simp]
theorem ensures_rename {next : MoveOutcome→Prog K P B α} :
    wp mayFail t (.ask (.rename role file path) next) post w ↔
      (mayFail (.rename role file path)=true → wp mayFail t (next .failed) post w) ∧
        (file.1≠.beside→wp mayFail t (next .crossDevice) post w) ∧
          match w.scratch.lookup file with
          | some source => wp mayFail t (next .moved) post
              (w.renameOver file path source)
          | none => wp mayFail t (next .failed) post w := by
  cases hlookup : w.scratch.lookup file with
  | none =>
    exact ensures_move (a := .rename role file path) (file.1=.beside) (.failed,w) (.crossDevice,w)
      (.failed,w) fun c => by cases c <;> simp only [exec,hlookup]
  | some source =>
    exact ensures_move (a := .rename role file path) (file.1=.beside) (.failed,w) (.crossDevice,w)
      (.moved,w.renameOver file path source) fun c => by cases c <;> simp only [exec,hlookup]

@[simp]
theorem ensures_hardLink {next : MoveOutcome→Prog K P B α} :
    wp mayFail t (.ask (.hardLink path file) next) post w ↔
      (mayFail (.hardLink path file)=true→wp mayFail t (next .failed) post w) ∧
        wp mayFail t (next .crossDevice) post w ∧
          match w.blobs.lookup path,w.scratch.lookup file with
          | some source,none => wp mayFail t (next .moved) post
              { w with scratch := w.scratch.insert file source }
          | _,_ => wp mayFail t (next .failed) post w := by
  cases hblob : w.blobs.lookup path <;> cases hscratch : w.scratch.lookup file
  case some.none source =>
    simpa using ensures_move (a := .hardLink path file) False (.failed,w) (.crossDevice,w)
      (.moved,{ w with scratch := w.scratch.insert file source })
      fun c => by cases c <;> simp [exec,hblob,hscratch]
  all_goals
    simpa using ensures_move (a := .hardLink path file) False (.failed,w) (.crossDevice,w)
      (.failed,w) fun c => by cases c <;> simp [exec,hblob,hscratch]

end Single

end NebularOs.OperationRules
