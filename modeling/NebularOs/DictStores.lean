import Mathlib
import NebularOs.BlobDecoding

/-!
# Trained dictionaries

Dictionaries are files with numbers. A training takes a lock, chooses the next number,
writes the file and makes it known to this process: first to the readers of frames, then
to new writes. Only one training at a time holds the lock; the process may end at any
step and start again from the files. Numbers only grow, no file changes, and a frame finds
the dictionary that it names.

What was trained is told from the moves alone, by a ledger. The files are the dictionaries
of the ledger, numbered from one on.
-/

namespace NebularOs.DictStores

open ByteFields SharedBlocks BlobDecoding List Function Option

/-- Dictionaries by the names that frames give them. -/
abbrev Registry := ℕ→Option Bytes

section Files

variable (zstd : Zstd) (files : List (ℕ×Bytes))

/-- Making a dictionary known, if it has a name. -/
def register (dict : Bytes) (registry : Registry) : Registry :=
  match zstd.dictId dict with
  | none => registry
  | some name => update registry name (some dict)

/-- Numbers of the files that are not empty, ascending. -/
def storedIds : List ℕ :=
  ((files.filter fun file => !file.2.isEmpty).map Prod.fst).insertionSort (· ≤ ·)

/-- The dictionary of a number. -/
def load (id : ℕ) : Option Bytes :=
  (files.find? fun file => file.1=id).bind fun file => if file.2.isEmpty then none else some file.2

/-- Loading one more dictionary. -/
def loadNext (loaded : Registry×Option (ℕ×Bytes)) (id : ℕ) : Registry×Option (ℕ×Bytes) :=
  match load files id with
  | none => loaded
  | some dict => (register zstd dict loaded.1,some (id,dict))

/-- Loading all dictionaries. The last one is for new writes. -/
def loadAll : Registry×Option (ℕ×Bytes) :=
  (storedIds files).foldl (loadNext zstd files) (fun _ => none,none)

/-- Whether there is a dictionary of a number. -/
def hasDictionary (id : ℕ) : Bool :=
  files.any fun file => file.1=id && !file.2.isEmpty

/-- The number of the next dictionary, if there are any left. -/
def nextId : Option ℕ :=
  match (storedIds files).getLast? with
  | none => some 1
  | some last => if last+1<2^16 then some (last+1) else none

end Files

/-- Where the training is that holds the lock. -/
inductive Phase where
  /-- It is about to choose a number and to train. -/
  | choosing
  /-- It is about to write the file. -/
  | saving (id : ℕ) (dict : Bytes)
  /-- The file is there. -/
  | registering (id : ℕ) (dict : Bytes)
  /-- Frames find it. -/
  | publishing (id : ℕ) (dict : Bytes)

/-- The files and what the process knows of them. -/
structure State where
  /-- Files with their numbers, in the order in which they were written. -/
  files : List (ℕ×Bytes)
  /-- Dictionaries for frames. -/
  registry : Registry
  /-- The dictionary for new writes. -/
  current : Option (ℕ×Bytes)
  /-- The training that holds the lock. -/
  training : Option Phase

/-- A process that starts. -/
def start (zstd : Zstd) (files : List (ℕ×Bytes)) : State :=
  ⟨files,(loadAll zstd files).1,(loadAll zstd files).2,none⟩

/-- What may happen next. -/
inductive Move where
  /-- One of the trainings that wait takes the lock, if it is free. -/
  | lock
  /-- The training takes its next step. Training gives this dictionary, or none if it is
  empty; training and writing may fail. -/
  | turn (dict : Bytes) (fails : Bool)
  /-- The process ends and starts again. -/
  | restart

/-- The next step of the training that holds the lock. -/
def advance (zstd : Zstd) (s : State) (dict : Bytes) (fails : Bool) : Phase→State
  | .choosing =>
    match nextId s.files with
    | none => { s with training := none }
    | some id =>
      if dict=[] ∨ fails=true then { s with training := none }
      else { s with training := some (.saving id dict) }
  | .saving id dict =>
    if hasDictionary s.files id=true ∨ fails=true then { s with training := none }
    else { s with
      files := s.files.filter (fun file => file.1≠id)++[(id,dict)]
      training := some (.registering id dict) }
  | .registering id dict =>
    { s with registry := register zstd dict s.registry, training := some (.publishing id dict) }
  | .publishing id dict =>
    { s with
      current := if s.current.all (fun current => current.1 ≤ id) then some (id,dict) else s.current
      training := none }

/-- One move. -/
def step (zstd : Zstd) (s : State) : Move→State
  | .lock => if s.training.isNone then { s with training := some .choosing } else s
  | .turn dict fails => s.training.elim s (advance zstd s dict fails)
  | .restart => start zstd s.files

/-- Any sequence of moves. -/
def run (zstd : Zstd) (s : State) (moves : List Move) : State :=
  moves.foldl (step zstd) s

/-- Files of trainings that have made them known to frames. -/
def State.registered (s : State) : List (ℕ×Bytes) :=
  match s.training with
  | some (.registering _ _) => s.files.dropLast
  | _ => s.files

/-- Files of trainings that have ended. -/
def State.published (s : State) : List (ℕ×Bytes) :=
  match s.training with
  | some (.registering _ _) => s.files.dropLast
  | some (.publishing _ _) => s.files.dropLast
  | _ => s.files

/-- Dictionaries that differ have different names. -/
structure OwnNames (zstd : Zstd) (trained : Bytes→Prop) : Prop where
  /-- Every dictionary has a name. -/
  named : ∀ {dict},trained dict→∃ name,zstd.dictId dict=some name
  /-- It is its own. -/
  own : ∀ {dict dict'},trained dict→trained dict' → zstd.dictId dict=zstd.dictId dict' → dict=dict'

/-- Frames find the dictionaries of some files, and no others. -/
structure Finds (zstd : Zstd) (registry : Registry) (files : List (ℕ×Bytes)) : Prop where
  /-- They find them. -/
  found : ∀ file∈files,∀ {name},zstd.dictId file.2=some name → registry name=some file.2
  /-- They find no others. -/
  named : ∀ {name dict},registry name=some dict→zstd.dictId dict=some name

/-- What holds of the files of a run. -/
structure Numbered (trained : Bytes→Prop) (files : List (ℕ×Bytes)) : Prop where
  /-- Numbers grow. -/
  ascending : (files.map Prod.fst).Pairwise (· < ·)
  /-- Files are dictionaries of trainings, with numbers from one on. -/
  dictionaries : ∀ file∈files,trained file.2 ∧ file.2≠[] ∧ 0<file.1 ∧ file.1<2^16

section Rules

variable {zstd : Zstd} {trained : Bytes→Prop} {registry : Registry} {files : List (ℕ×Bytes)}

theorem Finds.register (hown : OwnNames zstd trained) (hfiles : ∀ file∈files,trained file.2)
    (h : Finds zstd registry files) {file : ℕ×Bytes} (hfile : trained file.2) :
    Finds zstd (register zstd file.2 registry) (files++[file]) := by
  obtain ⟨name,hname⟩ := hown.named hfile
  have hregister : DictStores.register zstd file.2 registry=
      update registry name (some file.2) := by
    rw [DictStores.register,hname]
  rw [hregister]
  constructor
  · intro other hother name' hname'
    by_cases hsame : name'=name
    · have hdict : other.2=file.2 := by
        refine hown.own ?_ hfile (hname'.trans (hsame ▸ hname.symm))
        rcases mem_append.mp hother with hold | hnew
        · exact hfiles other hold
        · exact mem_singleton.mp hnew ▸ hfile
      rw [hsame,update_self,hdict]
    · rw [update_of_ne hsame]
      rcases mem_append.mp hother with hold | hnew
      · exact h.found other hold hname'
      · obtain rfl := mem_singleton.mp hnew
        exact absurd (Option.some.inj (hname'.symm.trans hname)) hsame
  · intro name' dict hdict
    by_cases hsame : name'=name
    · rw [hsame,update_self] at hdict
      rwa [hsame,← Option.some.inj hdict]
    · rw [update_of_ne hsame] at hdict
      exact h.named hdict

theorem Numbered.storedIds_eq (h : Numbered trained files) : storedIds files=files.map Prod.fst := by
  have hall : files.filter (fun file => !file.2.isEmpty)=files :=
    filter_eq_self.mpr fun file hfile => by simpa using (h.dictionaries file hfile).2.1
  rw [storedIds,hall]
  exact (h.ascending.imp Nat.le_of_lt).insertionSort_eq

theorem Numbered.load_eq (h : Numbered trained files) {file : ℕ×Bytes} (hfile : file∈files) :
    load files file.1=some file.2 := by
  have hfound : files.find? (fun other => other.1=file.1)=some file := by
    obtain ⟨other,hother⟩ : ∃ other,files.find? (fun other => other.1=file.1)=some other :=
      isSome_iff_exists.mp (List.find?_isSome.mpr ⟨file,hfile,by simp⟩)
    have hnumber : other.1=file.1 := by simpa using List.find?_some hother
    rw [hother,inj_on_of_nodup_map (h.ascending.imp ne_of_lt) (mem_of_find?_eq_some hother)
      hfile hnumber]
  have hsome : ¬file.2.isEmpty=true := by simpa using (h.dictionaries file hfile).2.1
  rw [load,hfound,bind_some,if_neg hsome]

theorem Numbered.loadAll (hown : OwnNames zstd trained) (h : Numbered trained files) :
    Finds zstd (loadAll zstd files).1 files ∧ (loadAll zstd files).2=files.getLast? := by
  have hloads : ∀ loaded,loaded<+:files →
      Finds zstd ((loaded.map Prod.fst).foldl (loadNext zstd files) (fun _ => none,none)).1 loaded ∧
        ((loaded.map Prod.fst).foldl (loadNext zstd files) (fun _ => none,none)).2=
          loaded.getLast? := by
    intro loaded
    induction loaded using List.reverseRecOn with
    | nil => exact fun _ => ⟨⟨fun _ hfile => absurd hfile not_mem_nil,nofun⟩,rfl⟩
    | append_singleton loaded file ih =>
      intro hloaded
      obtain ⟨hfinds,_⟩ := ih ((prefix_append _ _).trans hloaded)
      have hmem : ∀ other∈loaded++[file],other∈files := fun other hother => hloaded.subset hother
      have hfile := hmem file (by simp)
      rw [map_append,foldl_append,map_singleton,foldl_cons,foldl_nil,
        loadNext,h.load_eq hfile,List.getLast?_concat]
      refine ⟨hfinds.register hown (fun other hother => ?_) (h.dictionaries file hfile).1,rfl⟩
      exact (h.dictionaries other (hmem other (mem_append_left _ hother))).1
  rw [DictStores.loadAll,h.storedIds_eq]
  exact hloads files (prefix_refl _)

theorem Numbered.nextId_gt (h : Numbered trained files) {id : ℕ} (hid : nextId files=some id) :
    (∀ file∈files,file.1 < id) ∧ 0 < id ∧ id<2^16 := by
  rw [nextId,h.storedIds_eq,List.getLast?_map] at hid
  cases hlast : files.getLast? with
  | none =>
    rw [hlast] at hid
    cases hid
    rw [List.getLast?_eq_none_iff.mp hlast]
    exact ⟨fun _ hfile => absurd hfile not_mem_nil,Nat.one_pos,by decide⟩
  | some last =>
    rw [hlast,map_some] at hid
    dsimp only at hid
    split_ifs at hid with hleft
    cases hid
    refine ⟨fun file hfile => ?_,Nat.succ_pos _,hleft⟩
    obtain ⟨before,rfl⟩ := List.getLast?_eq_some_iff.mp hlast
    have hascending := h.ascending
    rw [map_append,pairwise_append] at hascending
    rcases mem_append.mp hfile with hold | hnew
    · exact (hascending.2.2 file.1 (mem_map_of_mem hold) last.1 (by simp)).trans
        (Nat.lt_succ_self _)
    · rw [mem_singleton.mp hnew]
      exact Nat.lt_succ_self _

theorem Numbered.concat (h : Numbered trained files) {id : ℕ} {dict : Bytes}
    (hid : nextId files=some id) (hdict : trained dict) (hsome : dict≠[]) :
    Numbered trained (files++[(id,dict)]) := by
  obtain ⟨hgreater,hpositive,hbound⟩ := h.nextId_gt hid
  constructor
  · rw [map_append,pairwise_append]
    refine ⟨h.ascending,pairwise_singleton _ _,fun number hnumber next hnext => ?_⟩
    obtain ⟨file,hfile,rfl⟩ := mem_map.mp hnumber
    rw [map_singleton,mem_singleton] at hnext
    exact hnext ▸ hgreater file hfile
  · intro file hfile
    rcases mem_append.mp hfile with hold | hnew
    · exact h.dictionaries file hold
    · rw [mem_singleton.mp hnew]
      exact ⟨hdict,hsome,hpositive,hbound⟩

end Rules

/-- What holds of every state of a run. -/
structure Sound (zstd : Zstd) (trained : Bytes→Prop) (s : State) : Prop where
  /-- Numbers of files grow. -/
  numbered : Numbered trained s.files
  /-- Frames find the dictionaries that were made known to them. -/
  finds : Finds zstd s.registry s.registered
  /-- New writes use the last dictionary. -/
  current : s.current=s.published.getLast?
  /-- A training that is about to write has the next number and a dictionary. -/
  saving : ∀ {id dict},s.training=some (.saving id dict) →
    nextId s.files=some id ∧ trained dict ∧ dict≠[]
  /-- A training that has written wrote the last file. -/
  saved : ∀ {id dict},s.training=some (.registering id dict) ∨
    s.training=some (.publishing id dict)→s.files.getLast?=some (id,dict)

section Steps

variable {zstd : Zstd} {trained : Bytes→Prop} {s : State}

theorem Sound.idle (h : Sound zstd trained s) {training : Option Phase}
    (hbefore : s.registered=s.files ∧ s.published=s.files)
    (hsaving : ∀ {id dict},training=some (.saving id dict) →
      nextId s.files=some id ∧ trained dict ∧ dict≠[])
    (hafter : ∀ {id dict},training≠some (.registering id dict) ∧
      training≠some (.publishing id dict)) : Sound zstd trained { s with training := training } := by
  have hregistered : ({ s with training := training } : State).registered=s.files := by
    unfold State.registered
    split
    · rename_i htraining
      exact absurd htraining hafter.1
    · rfl
  have hpublished : ({ s with training := training } : State).published=s.files := by
    unfold State.published
    split
    · rename_i htraining
      exact absurd htraining hafter.1
    · rename_i htraining
      exact absurd htraining hafter.2
    · rfl
  refine ⟨h.numbered,?_,?_,hsaving,fun htraining => ?_⟩
  · rw [hregistered,← hbefore.1]
    exact h.finds
  · rw [hpublished,← hbefore.2]
    exact h.current
  · rcases htraining with htraining | htraining
    · exact absurd htraining hafter.1
    · exact absurd htraining hafter.2

theorem sound_start (hown : OwnNames zstd trained) {files : List (ℕ×Bytes)}
    (h : Numbered trained files) : Sound zstd trained (start zstd files) := by
  obtain ⟨hfinds,hcurrent⟩ := h.loadAll hown
  exact ⟨h,hfinds,hcurrent,nofun,fun htraining => by cases htraining <;> contradiction⟩

theorem Sound.save (h : Sound zstd trained s) {id : ℕ} {dict : Bytes}
    (htraining : s.training=some (.saving id dict)) :
    s.files.filter (fun file => file.1≠id)=s.files ∧ Sound zstd trained { s with
        files := s.files++[(id,dict)], training := some (.registering id dict) } := by
  obtain ⟨hid,hdict,hsome⟩ := h.saving htraining
  have hregistered : s.registered=s.files := by rw [State.registered,htraining]
  have hpublished : s.published=s.files := by rw [State.published,htraining]
  have hlast : (s.files++[(id,dict)]).dropLast=s.files := dropLast_concat
  constructor
  · refine filter_eq_self.mpr fun file hfile => decide_eq_true ?_
    exact ne_of_lt ((h.numbered.nextId_gt hid).1 file hfile)
  · refine ⟨h.numbered.concat hid hdict hsome,?_,?_,nofun,fun hwritten => ?_⟩
    · rw [State.registered,hlast,← hregistered]
      exact h.finds
    · rw [State.published,hlast,← hpublished]
      exact h.current
    · rcases hwritten with hwritten | hwritten
      · cases hwritten
        exact List.getLast?_concat
      · cases hwritten

theorem Sound.makeKnown (hown : OwnNames zstd trained) (h : Sound zstd trained s) {id : ℕ}
    {dict : Bytes} (htraining : s.training=some (.registering id dict)) :
    Sound zstd trained { s with
      registry := register zstd dict s.registry, training := some (.publishing id dict) } := by
  have hsaved := h.saved (Or.inl htraining)
  obtain ⟨before,hfiles⟩ := List.getLast?_eq_some_iff.mp hsaved
  have hregistered : s.registered=before := by
    rw [State.registered,htraining,hfiles]
    exact dropLast_concat
  have hpublished : s.published=before := by
    rw [State.published,htraining,hfiles]
    exact dropLast_concat
  have hdictionaries := h.numbered.dictionaries
  rw [hfiles] at hdictionaries
  have hfinds := h.finds
  rw [hregistered] at hfinds
  refine ⟨h.numbered,?_,?_,nofun,fun hwritten => ?_⟩
  · rw [State.registered,hfiles]
    refine hfinds.register hown (fun file hfile => ?_) (hdictionaries (id,dict) (by simp)).1
    exact (hdictionaries file (mem_append_left _ hfile)).1
  · rw [State.published,hfiles,dropLast_concat,← hpublished]
    exact h.current
  · rcases hwritten with hwritten | hwritten
    · cases hwritten
    cases hwritten
    exact hsaved

theorem Sound.publish (h : Sound zstd trained s) {id : ℕ} {dict : Bytes}
    (htraining : s.training=some (.publishing id dict)) :
    s.current.all (fun current => current.1 ≤ id)=true ∧
      Sound zstd trained { s with current := some (id,dict), training := none } := by
  have hsaved := h.saved (Or.inr htraining)
  obtain ⟨before,hfiles⟩ := List.getLast?_eq_some_iff.mp hsaved
  have hpublished : s.published=before := by
    rw [State.published,htraining,hfiles]
    exact dropLast_concat
  have hregistered : s.registered=s.files := by rw [State.registered,htraining]
  constructor
  · rw [h.current,hpublished]
    cases hlast : before.getLast? with
    | none => rfl
    | some current =>
      have hascending := h.numbered.ascending
      rw [hfiles,map_append,pairwise_append] at hascending
      have hless := hascending.2.2 current.1 (mem_map_of_mem (mem_of_getLast? hlast)) id
        (by simp)
      exact decide_eq_true hless.le
  · refine ⟨h.numbered,?_,hsaved.symm,nofun,fun hwritten => ?_⟩
    · have hfinds := h.finds
      rwa [hregistered] at hfinds
    · rcases hwritten with hwritten | hwritten
      · cases hwritten
      · cases hwritten

/-- Every move keeps all this, and all files. -/
theorem Sound.step (hown : OwnNames zstd trained) (h : Sound zstd trained s) {move : Move}
    (hmove : ∀ {dict fails},move=.turn dict fails→dict≠[]→trained dict) :
    Sound zstd trained (step zstd s move) ∧ s.files<+:(step zstd s move).files := by
  cases move with
  | lock =>
    unfold DictStores.step
    split_ifs with hfree
    · have hnone := isNone_iff_eq_none.mp hfree
      refine ⟨h.idle ?_ nofun ⟨nofun,nofun⟩,prefix_refl _⟩
      rw [State.registered,State.published,hnone]
      exact ⟨rfl,rfl⟩
    · exact ⟨h,prefix_refl _⟩
  | restart => exact ⟨sound_start hown h.numbered,prefix_refl _⟩
  | turn dict fails =>
    cases htraining : s.training with
    | none =>
      rw [DictStores.step,htraining]
      exact ⟨h,prefix_refl _⟩
    | some phase =>
      rw [DictStores.step,htraining,elim_some]
      cases phase with
      | choosing =>
        have hbefore : s.registered=s.files ∧ s.published=s.files := by
          rw [State.registered,State.published,htraining]
          exact ⟨rfl,rfl⟩
        have hnone := @Sound.idle zstd trained s h none hbefore nofun ⟨nofun,nofun⟩
        rw [advance]
        cases hid : nextId s.files with
        | none => exact ⟨hnone,prefix_refl _⟩
        | some id =>
          split_ifs with hfailed
          · exact ⟨hnone,prefix_refl _⟩
          · refine ⟨h.idle hbefore (fun hsaving => ?_) ⟨nofun,nofun⟩,prefix_refl _⟩
            cases hsaving
            exact ⟨hid,hmove rfl fun hempty => hfailed (Or.inl hempty),
              fun hempty => hfailed (Or.inl hempty)⟩
      | saving id dict =>
        obtain ⟨hothers,hsaved⟩ := h.save htraining
        have hbefore : s.registered=s.files ∧ s.published=s.files := by
          rw [State.registered,State.published,htraining]
          exact ⟨rfl,rfl⟩
        rw [advance,hothers]
        split_ifs with hfailed
        · exact ⟨h.idle hbefore nofun ⟨nofun,nofun⟩,prefix_refl _⟩
        · exact ⟨hsaved,prefix_append _ _⟩
      | registering id dict => exact ⟨h.makeKnown hown htraining,prefix_refl _⟩
      | publishing id dict =>
        obtain ⟨hcurrent,hpublished⟩ := h.publish htraining
        rw [advance,if_pos hcurrent]
        exact ⟨hpublished,prefix_refl _⟩

end Steps

theorem Sound.run {zstd : Zstd} {trained : Bytes→Prop} {s : State} (hown : OwnNames zstd trained)
    (h : Sound zstd trained s) {moves : List Move}
    (hmoves : ∀ dict fails,.turn dict fails∈moves→dict≠[]→trained dict) :
    Sound zstd trained (run zstd s moves) ∧ s.files<+:(run zstd s moves).files := by
  induction moves generalizing s with
  | nil => exact ⟨h,prefix_refl _⟩
  | cons move moves ih =>
    obtain ⟨hstep,hkept⟩ := @Sound.step zstd trained s hown h move fun hturn =>
      hmoves _ _ (mem_cons.mpr (Or.inl hturn.symm))
    obtain ⟨hrun,hkept'⟩ := ih hstep fun dict fails hturn =>
      hmoves dict fails (mem_cons_of_mem _ hturn)
    exact ⟨hrun,hkept.trans hkept'⟩

/-- How far the training that holds the lock has come. -/
inductive Hand where
  | idle
  | choosing
  | saving (dict : Bytes)
  | saved (dict : Bytes)
  | found (dict : Bytes)

/-- The trainings of a run, told from its moves. -/
structure Ledger where
  /-- Dictionaries of trainings that have ended, and of written ones that a restart cut off. -/
  ended : List Bytes
  /-- The training that holds the lock. -/
  hand : Hand

/-- Dictionaries that were written. -/
def Ledger.written (ledger : Ledger) : List Bytes :=
  match ledger.hand with
  | .saved dict | .found dict => ledger.ended++[dict]
  | _ => ledger.ended

/-- Dictionaries that frames may name. -/
def Ledger.known (ledger : Ledger) : List Bytes :=
  match ledger.hand with
  | .found dict => ledger.ended++[dict]
  | _ => ledger.ended

/-- The training goes on. There are 65535 numbers. -/
def Ledger.turn (ledger : Ledger) (trained : Bytes) (fails : Bool) : Ledger :=
  match ledger.hand with
  | .idle => ledger
  | .choosing => { ledger with
    hand := if trained=[] ∨ fails=true ∨ 65535≤ledger.ended.length then .idle
      else .saving trained }
  | .saving dict => { ledger with hand := if fails then .idle else .saved dict }
  | .saved dict => { ledger with hand := .found dict }
  | .found dict => ⟨ledger.ended++[dict],.idle⟩

/-- One move. -/
def Ledger.step (ledger : Ledger) : Move→Ledger
  | .lock =>
    match ledger.hand with
    | .idle => { ledger with hand := .choosing }
    | _ => ledger
  | .turn dict fails => ledger.turn dict fails
  | .restart => ⟨ledger.written,.idle⟩

/-- The trainings of some moves from an empty directory. -/
def ledgerOf (moves : List Move) : Ledger := moves.foldl Ledger.step ⟨[],.idle⟩

/-- Files of dictionaries in the order of their trainings. -/
def numberedFiles (dicts : List Bytes) : List (ℕ×Bytes) := dicts.mapIdx fun n dict => (n+1,dict)

/-- The phase of a training with a number. -/
def Hand.phase (id : ℕ) : Hand→Option Phase
  | .idle => none
  | .choosing => some .choosing
  | .saving dict => some (.saving id dict)
  | .saved dict => some (.registering id dict)
  | .found dict => some (.publishing id dict)

/-- A state as the ledger says. -/
structure Follows (s : State) (ledger : Ledger) : Prop where
  /-- Files are the dictionaries that were written. -/
  files : s.files=numberedFiles ledger.written
  /-- The training has the next number. -/
  training : s.training=ledger.hand.phase (ledger.ended.length+1)

section Ledgers

variable {zstd : Zstd} {trained : Bytes→Prop} {s : State} {ledger : Ledger}

/-- One more file gets the next number. -/
theorem numberedFiles_concat (dicts : List Bytes) (dict : Bytes) :
    numberedFiles (dicts++[dict])=numberedFiles dicts++[(dicts.length+1,dict)] :=
  mapIdx_concat

/-- Numbers follow one another up to 65535. -/
theorem nextId_numberedFiles {dicts : List Bytes} (h : Numbered trained (numberedFiles dicts)) :
    nextId (numberedFiles dicts)=if dicts.length+1<2^16 then some (dicts.length+1) else none := by
  rw [nextId,h.storedIds_eq,List.getLast?_map]
  induction dicts using List.reverseRecOn with
  | nil => rfl
  | append_singleton dicts dict =>
    rw [numberedFiles_concat,List.getLast?_concat,length_append]
    rfl

/-- Files that frames may name, and files of trainings that have ended. -/
theorem Follows.parts (h : Follows s ledger) : s.registered=numberedFiles ledger.known ∧
    s.published=numberedFiles ledger.ended := by
  obtain ⟨hfiles,htraining⟩ := h
  unfold State.registered State.published
  rw [hfiles,htraining]
  unfold Ledger.written Ledger.known Hand.phase
  cases ledger.hand with
  | idle | choosing | saving dict => exact ⟨rfl,rfl⟩
  | saved dict | found dict => simp [numberedFiles_concat]

/-- The ledger says where a turn leads. -/
theorem Follows.turn (hsound : Sound zstd trained s) (h : Follows s ledger) (dict : Bytes)
    (fails : Bool) : Follows (step zstd s (.turn dict fails)) (ledger.turn dict fails) := by
  obtain ⟨ended,hand⟩ := ledger
  obtain ⟨hfiles,htraining⟩ := h
  rw [step,htraining]
  cases hand with
  | idle => exact ⟨hfiles,htraining⟩
  | choosing =>
    have hwritten : s.files=numberedFiles ended := hfiles
    have hnext := nextId_numberedFiles (hwritten ▸ hsound.numbered)
    rw [← hwritten] at hnext
    dsimp only [Hand.phase,elim_some,advance,Ledger.turn]
    rw [hnext]
    by_cases hleft : ended.length+1<2^16
    · rw [if_pos hleft]
      dsimp only
      by_cases hfailed : dict=[] ∨ fails=true
      · rw [if_pos hfailed,if_pos (by tauto)]
        exact ⟨hfiles,rfl⟩
      · have hgoes : ¬(dict=[] ∨ fails=true ∨ 65535≤ended.length) := by
          rintro (hempty | hfails | hfull)
          · exact hfailed (.inl hempty)
          · exact hfailed (.inr hfails)
          · omega
        rw [if_neg hfailed,if_neg hgoes]
        exact ⟨hfiles,rfl⟩
    · rw [if_neg hleft,if_pos (by omega)]
      exact ⟨hfiles,rfl⟩
  | saving dict =>
    have hid : nextId s.files=some (ended.length+1) := (hsound.saving htraining).1
    have hfree : ¬hasDictionary s.files (ended.length+1)=true := by
      intro hthere
      obtain ⟨file,hfile,hsame⟩ := any_eq_true.mp hthere
      have hless := (hsound.numbered.nextId_gt hid).1 file hfile
      simp only [Bool.and_eq_true,decide_eq_true_eq] at hsame
      omega
    dsimp only [Hand.phase,elim_some,advance,Ledger.turn]
    rw [(hsound.save htraining).1]
    cases fails with
    | true =>
      rw [if_pos (.inr rfl)]
      exact ⟨hfiles,rfl⟩
    | false =>
      rw [if_neg (by simpa using hfree)]
      refine ⟨?_,rfl⟩
      dsimp only
      rw [hfiles]
      exact (numberedFiles_concat ended dict).symm
  | saved dict => exact ⟨hfiles,rfl⟩
  | found dict => exact ⟨hfiles,rfl⟩

/-- The ledger says where a run leads. -/
theorem Follows.run (hown : OwnNames zstd trained) (hsound : Sound zstd trained s)
    (h : Follows s ledger) {moves : List Move}
    (hmoves : ∀ dict fails,.turn dict fails∈moves→dict≠[]→trained dict) :
    Follows (run zstd s moves) (moves.foldl Ledger.step ledger) := by
  induction moves generalizing s ledger with
  | nil => exact h
  | cons move moves ih =>
    have hstep := (@Sound.step zstd trained s hown hsound move fun hturn =>
      hmoves _ _ (mem_cons.mpr (Or.inl hturn.symm))).1
    refine ih hstep ?_ fun dict fails hturn => hmoves dict fails (mem_cons_of_mem _ hturn)
    cases move with
    | restart => exact ⟨h.files,rfl⟩
    | turn dict fails => exact h.turn hsound dict fails
    | lock =>
      obtain ⟨ended,hand⟩ := ledger
      unfold DictStores.step
      rw [h.training]
      cases hand with
      | idle => exact ⟨h.files,rfl⟩
      | choosing | saving dict | saved dict | found dict => exact h

end Ledgers

/-- From an empty directory, after any moves of trainings and restarts: the files are the
dictionaries that were trained, numbered in their order, later moves change no file, new
writes use the last dictionary of the trainings that have ended, and a frame finds the
dictionary that it names. -/
theorem dictionaries_kept_and_found {zstd : Zstd} {trained : Bytes→Prop}
    (hown : OwnNames zstd trained) {moves later : List Move}
    (hmoves : ∀ dict fails,.turn dict fails∈moves++later→dict≠[]→trained dict) {s : State}
    (hrun : run zstd (start zstd []) moves=s) :
    s.files=numberedFiles (ledgerOf moves).written ∧ s.files<+:(run zstd s later).files ∧
      (s.files.map Prod.fst).Pairwise (· < ·) ∧
      s.current=(numberedFiles (ledgerOf moves).ended).getLast? ∧
      (∀ {name dict},s.registry name=some dict→zstd.dictId dict=some name) ∧
      ∀ env : ReadEnv,env.zstd=zstd→env.dictionaries=s.registry→∀ dict∈(ledgerOf moves).known,
        ∀ frame,zstd.frameDictId frame=zstd.dictId dict →
          dictionaryForFrame env frame=.ok (some dict) := by
  have hempty : Numbered trained [] := ⟨List.Pairwise.nil,fun _ hfile => absurd hfile not_mem_nil⟩
  have hmade : ∀ dict fails,.turn dict fails∈moves→dict≠[]→trained dict :=
    fun dict fails hturn => hmoves dict fails (mem_append_left _ hturn)
  have hstart := sound_start hown hempty
  have hsound := (hstart.run hown hmade).1
  have hfollows : Follows (run zstd (start zstd []) moves) (ledgerOf moves) :=
    Follows.run hown hstart ⟨rfl,rfl⟩ hmade
  rw [hrun] at hsound hfollows
  obtain ⟨hregistered,hpublished⟩ := hfollows.parts
  have hlater := (hsound.run hown fun dict fails hturn =>
    hmoves dict fails (mem_append_right _ hturn)).2
  refine ⟨hfollows.files,hlater,hsound.numbered.ascending,hpublished ▸ hsound.current,
    hsound.finds.named,?_⟩
  rintro env rfl hregistry dict hdict frame hframe
  obtain ⟨n,hn,rfl⟩ := getElem_of_mem hdict
  have hfile : (n+1,(ledgerOf moves).known[n])∈s.registered := by
    rw [hregistered]
    exact mem_mapIdx.mpr ⟨n,hn,rfl⟩
  have hmem : (n+1,(ledgerOf moves).known[n])∈s.files := by
    unfold State.registered at hfile
    split at hfile
    · exact mem_of_mem_dropLast hfile
    · exact hfile
  obtain ⟨name,hname⟩ := hown.named (hsound.numbered.dictionaries _ hmem).1
  rw [dictionaryForFrame,hframe,hname]
  dsimp only
  rw [hregistry,hsound.finds.found _ hfile hname]

/-- Steps of a training that succeeds. -/
def training (dict : Bytes) : List Move :=
  [.lock,.turn dict false,.turn [] false,.turn [] false,.turn [] false]

/-- Two trainings with a restart between them. -/
def sampleMoves : List Move := training [1,7]++[.restart]++training [2,8]

/-- What they leave. -/
def sampleState : State := run namingZstd (start namingZstd []) sampleMoves

/-- Reading after them. -/
def sampleEnv : ReadEnv :=
  ⟨namingZstd,plainHash,sampleState.registry,none,none⟩

/-- Both dictionaries have numbers, the second one is for new writes, and a frame finds
the first. -/
theorem first_dictionary_found :
    sampleState.files=numberedFiles [[1,7],[2,8]] ∧ sampleState.current=some (2,[2,8]) ∧
      dictionaryForFrame sampleEnv [1,5]=.ok (some [1,7]) := by
  have hkept := @dictionaries_kept_and_found namingZstd (fun dict => dict=[1,7] ∨ dict=[2,8])
    ⟨by rintro _ (rfl | rfl); exacts [⟨1,rfl⟩,⟨2,rfl⟩],
      by rintro _ _ (rfl | rfl) (rfl | rfl) hname <;> first | rfl | cases hname⟩
    sampleMoves [] (by simp [sampleMoves,training]) sampleState rfl
  exact ⟨hkept.1,hkept.2.2.2.1,hkept.2.2.2.2.2 sampleEnv rfl rfl [1,7] mem_cons_self [1,5] rfl⟩

end NebularOs.DictStores
