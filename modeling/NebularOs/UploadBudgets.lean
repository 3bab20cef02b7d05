import Mathlib

/-!
# Upload budget

Uploads share a budget of bytes. A call reads the counter of bytes in flight and then
exchanges it, unless another call changed it in between, in which case it starts again.
Between any two atomic steps the counter is the sum of the guards that are held, up to
wrapping, and an idle budget admits every upload. Wrapping never happens unless the
budget is the largest number of 64 bits: there the saturating check refuses nothing.
-/

namespace NebularOs.UploadBudgets

open List

/-- The largest number of 64 bits. -/
def u64Max : ℕ := 2^64-1

/-- A budget of bytes, charged in units. -/
structure UploadBudget where
  /-- Bytes that may be in flight. -/
  maxBytes : ℕ
  /-- Uploads are charged multiples of this. -/
  permitUnit : ℕ
  /-- The budget is not empty. -/
  maxBytes_pos : 0 < maxBytes
  /-- The budget has 64 bits. -/
  maxBytes_le : maxBytes≤u64Max
  /-- Units are not small. -/
  permitUnit_ge : 4096≤permitUnit

/-- A configured budget. -/
def UploadBudget.new (maxBytes permitUnit : UInt64) : UploadBudget where
  maxBytes := max maxBytes.toNat 1
  permitUnit := max permitUnit.toNat 4096
  maxBytes_pos := by omega
  maxBytes_le := by
    have hlt := maxBytes.toNat_lt
    unfold u64Max
    omega
  permitUnit_ge := by omega

/-- The length of an upload in whole units, at least one. -/
def UploadBudget.permitsFor (budget : UploadBudget) (contentLength : ℕ) : ℕ :=
  let units := (contentLength+(budget.permitUnit-1))/budget.permitUnit
  max (min (units*budget.permitUnit) u64Max) budget.permitUnit

/-- What an upload is charged: at most the whole budget. -/
def UploadBudget.need (budget : UploadBudget) (bytes : UInt64) : ℕ :=
  min (budget.permitsFor bytes.toNat) budget.maxBytes

/-- Where a call is between two atomic steps. -/
inductive Call where
  /-- It is about to read the counter. -/
  | loading (need : ℕ)
  /-- It has read the counter and is about to exchange it. -/
  | exchanging (need current : ℕ)
  /-- It was refused. -/
  | refused
  /-- Its guard is held. -/
  | holding (bytes : ℕ)
  /-- Its guard was dropped. -/
  | dropped
  deriving DecidableEq

/-- The next atomic step of a call, on the counter. A weak exchange may fail for no
reason. Sums and differences of the counter wrap. -/
def advance (budget : UploadBudget) (fails : Bool) (inFlight : ℕ) : Call→ℕ×Call
  | .loading need =>
    if budget.maxBytes < min (inFlight+need) u64Max then (inFlight,.refused)
    else (inFlight,.exchanging need inFlight)
  | .exchanging need current =>
    if inFlight=current ∧ fails=false then ((current+need)%2^64,.holding need)
    else (inFlight,.loading need)
  | .holding bytes => ((inFlight+(2^64-bytes))%2^64,.dropped)
  | call => (inFlight,call)

/-- The counter and all calls, in the order in which they began. -/
structure State where
  /-- Bytes in flight. -/
  inFlight : ℕ
  /-- The calls. -/
  calls : List Call

/-- What may happen next. -/
inductive Move where
  /-- An upload of this length asks for a guard. -/
  | tryAcquire (bytes : UInt64)
  /-- A call takes its next step, or its guard is dropped. -/
  | turn (i : ℕ) (fails : Bool)

/-- One move. -/
def step (budget : UploadBudget) (s : State) : Move→State
  | .tryAcquire bytes => {s with calls := s.calls++[.loading (budget.need bytes)]}
  | .turn i fails =>
    match s.calls[i]? with
    | none => s
    | some call =>
      ⟨(advance budget fails s.inFlight call).1,s.calls.set i (advance budget fails s.inFlight call).2⟩

/-- Any interleaving of moves. -/
def run (budget : UploadBudget) (s : State) (moves : List Move) : State :=
  moves.foldl (step budget) s

/-- No call was made yet. -/
def idle : State := ⟨0,[]⟩

/-- Bytes of the guard that a call holds. -/
def Call.held : Call→ℕ
  | .holding bytes => bytes
  | _ => 0

/-- Bytes of all guards that are held. -/
def State.held (s : State) : ℕ := (s.calls.map Call.held).sum

theorem held_set {calls : List Call} {i : ℕ} {call : Call} (h : calls[i]?=some call) (call' : Call) :
    ((calls.set i call').map Call.held).sum+call.held=(calls.map Call.held).sum+call'.held := by
  induction calls generalizing i with
  | nil => cases h
  | cons first calls ih =>
    cases i with
    | zero =>
      cases h
      simp only [set_cons_zero,map_cons,sum_cons]
      omega
    | succ i =>
      have hrest := ih h
      simp only [set_cons_succ,map_cons,sum_cons]
      omega

/-- What a call asks for fits the budget, and its exchange was checked. -/
def Call.Fits (budget : UploadBudget) : Call→Prop
  | .loading need => need≤budget.maxBytes
  | .exchanging need current =>
    need≤budget.maxBytes ∧ min (current+need) u64Max≤budget.maxBytes
  | .holding bytes => bytes≤budget.maxBytes
  | _ => True

/-- What holds between any two atomic steps. -/
structure Counted (budget : UploadBudget) (s : State) : Prop where
  /-- The counter is the sum of the guards, up to wrapping. -/
  inFlight : s.inFlight=s.held%2^64
  /-- All calls fit the budget. -/
  fits : ∀ call∈s.calls,call.Fits budget
  /-- Guards are within a budget that is not the largest. -/
  within : budget.maxBytes≠u64Max→s.held≤budget.maxBytes

theorem advance_counted {budget : UploadBudget} {fails : Bool} {inFlight total : ℕ} {call : Call}
    (hcount : inFlight=total%2^64) (hfits : call.Fits budget) (hheld : call.held≤total)
    (hwithin : budget.maxBytes≠u64Max→total≤budget.maxBytes) :
    (advance budget fails inFlight call).2.Fits budget ∧
      ∀ total',total'+call.held=total+(advance budget fails inFlight call).2.held →
        (advance budget fails inFlight call).1=total'%2^64 ∧
          (budget.maxBytes≠u64Max→total'≤budget.maxBytes) := by
  have hmax := budget.maxBytes_le
  have hsame : ∀ total',total'+0=total+0 →
      inFlight=total'%2^64 ∧ (budget.maxBytes≠u64Max→total'≤budget.maxBytes) :=
    fun total' htotal => Nat.add_right_cancel htotal ▸ ⟨hcount,hwithin⟩
  unfold u64Max at hmax
  cases call with
  | loading need =>
    dsimp only [advance]
    split_ifs with hover
    · exact ⟨trivial,hsame⟩
    · exact ⟨⟨hfits,not_lt.mp hover⟩,hsame⟩
  | exchanging need current =>
    obtain ⟨hneed,hchecked⟩ := hfits
    dsimp only [advance]
    split_ifs with hcurrent
    · refine ⟨hneed,fun total' htotal => ?_⟩
      dsimp only [Call.held] at htotal
      refine ⟨by omega,fun hne => ?_⟩
      have hless := hwithin hne
      unfold u64Max at hne hchecked
      omega
    · exact ⟨hneed,hsame⟩
  | holding bytes =>
    refine ⟨trivial,fun total' htotal => ?_⟩
    dsimp only [Call.held,advance] at htotal hheld ⊢
    unfold Call.Fits at hfits
    refine ⟨by omega,fun hne => ?_⟩
    have hless := hwithin hne
    omega
  | refused | dropped => exact ⟨trivial,hsame⟩

/-- One move keeps the counts. -/
theorem Counted.step {budget : UploadBudget} {s : State} (h : Counted budget s) (move : Move) :
    Counted budget (step budget s move) := by
  cases move with
  | tryAcquire bytes =>
    have hheld : (UploadBudgets.step budget s (.tryAcquire bytes)).held=s.held := by
      simp [State.held,UploadBudgets.step,Call.held]
    refine ⟨hheld ▸ h.inFlight,fun call hcall => ?_,hheld ▸ h.within⟩
    rcases mem_append.mp hcall with hold | hnew
    · exact h.fits call hold
    · obtain rfl := mem_singleton.mp hnew
      exact Nat.min_le_right _ _
  | turn i fails =>
    cases hcall : s.calls[i]? with
    | none => simpa only [UploadBudgets.step,hcall] using h
    | some call =>
      have hmem := mem_of_getElem? hcall
      have hheld : call.held ≤ s.held :=
        single_le_sum (fun _ _ => Nat.zero_le _) _ (mem_map_of_mem hmem)
      obtain ⟨hfits,htotal⟩ := @advance_counted budget fails _ _ _ h.inFlight (h.fits call hmem)
        hheld h.within
      obtain ⟨hcount,hwithin⟩ := htotal _ (held_set hcall _)
      simp only [UploadBudgets.step,hcall]
      refine ⟨hcount,fun other hother => ?_,hwithin⟩
      rcases mem_or_eq_of_mem_set hother with hold | rfl
      · exact h.fits other hold
      · exact hfits

theorem counted_run {budget : UploadBudget} (moves : List Move) :
    Counted budget (run budget idle moves) := by
  induction moves using List.reverseRecOn with
  | nil => exact ⟨rfl,fun _ hcall => absurd hcall not_mem_nil,fun _ => Nat.zero_le _⟩
  | append_singleton moves move ih =>
    rw [run,foldl_append]
    exact ih.step move

theorem step_turn_last (budget : UploadBudget) (fails : Bool) (inFlight : ℕ) (calls : List Call)
    (call : Call) : step budget ⟨inFlight,calls++[call]⟩ (.turn calls.length fails)=
      ⟨(advance budget fails inFlight call).1,calls++[(advance budget fails inFlight call).2]⟩ := by
  simp [step]

theorem advance_loading {budget : UploadBudget} {need : ℕ} (h : need≤budget.maxBytes)
    (fails : Bool) : advance budget fails 0 (.loading need)=(0,.exchanging need 0) := by
  refine if_neg ?_
  omega

theorem run_failures {budget : UploadBudget} {need : ℕ} (h : need≤budget.maxBytes)
    (calls : List Call) (failures : ℕ) :
    run budget ⟨0,calls++[.loading need]⟩ (List.replicate (2*failures) (.turn calls.length true))=
      ⟨0,calls++[.loading need]⟩ := by
  induction failures with
  | zero => rfl
  | succ failures ih =>
    have htwo : List.replicate (2*(failures+1)) (Move.turn calls.length true)=
        .turn calls.length true::.turn calls.length true::
          List.replicate (2*failures) (.turn calls.length true) := rfl
    rwa [htwo,run,foldl_cons,foldl_cons,step_turn_last,advance_loading h,step_turn_last]

/-- Moves of a call that is alone: some exchanges fail, and the next one does not. -/
def aloneMoves (bytes : UInt64) (i failures : ℕ) : List Move :=
  .tryAcquire bytes::(List.replicate (2*failures) (.turn i true)++
    [.turn i false,.turn i false])

theorem run_aloneMoves (budget : UploadBudget) (calls : List Call) (bytes : UInt64) (failures : ℕ) :
    run budget ⟨0,calls⟩ (aloneMoves bytes calls.length failures)=
      ⟨budget.need bytes%2^64,calls++[.holding (budget.need bytes)]⟩ := by
  have hneed : budget.need bytes≤budget.maxBytes := Nat.min_le_right _ _
  have hfailures := run_failures hneed calls failures
  unfold run at hfailures
  rw [aloneMoves,run,foldl_cons,foldl_append]
  dsimp only [step]
  rw [hfailures,foldl_cons,foldl_cons,step_turn_last,advance_loading hneed,step_turn_last]
  simp [advance]

theorem need_largest (budget : UploadBudget) : budget.need (UInt64.ofNat u64Max)=budget.maxBytes := by
  have hunit := budget.permitUnit_ge
  have hmax := budget.maxBytes_le
  have hlargest : (UInt64.ofNat u64Max).toNat=u64Max := by decide
  have hunits : u64Max≤(u64Max+(budget.permitUnit-1))/budget.permitUnit*budget.permitUnit := by
    have hmod := Nat.mod_lt (u64Max+(budget.permitUnit-1)) (show 0<budget.permitUnit by omega)
    have hdiv := Nat.div_add_mod' (u64Max+(budget.permitUnit-1)) budget.permitUnit
    omega
  rw [UploadBudget.need,hlargest,UploadBudget.permitsFor]
  omega

theorem maxBytes_largest (permitUnit : UInt64) :
    (UploadBudget.new (UInt64.ofNat u64Max) permitUnit).maxBytes=u64Max := by
  have hlargest : max (UInt64.ofNat u64Max).toNat 1=u64Max := by decide
  exact hlargest

/-- Moves of two of the largest uploads, one after the other. -/
def twoLargest : List Move :=
  aloneMoves (UInt64.ofNat u64Max) 0 0++aloneMoves (UInt64.ofNat u64Max) 1 0

theorem run_twoLargest {budget : UploadBudget} (h : budget.maxBytes=u64Max) :
    run budget idle twoLargest=⟨u64Max-1,[.holding u64Max,.holding u64Max]⟩ := by
  have hneed := need_largest budget
  rw [h] at hneed
  have hfirst := run_aloneMoves budget [] (UInt64.ofNat u64Max) 0
  rw [hneed] at hfirst
  unfold twoLargest
  rw [run,foldl_append]
  unfold run at hfirst
  dsimp only [length_nil,nil_append] at hfirst
  rw [idle,hfirst]
  simp [aloneMoves,step,advance,hneed,h]
  decide

/-- The counter is the sum of the guards and within the budget between any two steps of
every interleaving, if and only if the budget is not the largest number. A call of any
size that is alone while no guard is held gets one, whatever exchanges fail before. -/
theorem inFlight_eq_held_iff (maxBytes permitUnit : UInt64) : ((∀ moves,
      (run (.new maxBytes permitUnit) idle moves).inFlight=
          (run (.new maxBytes permitUnit) idle moves).held ∧
        (run (.new maxBytes permitUnit) idle moves).inFlight ≤
          (UploadBudget.new maxBytes permitUnit).maxBytes) ↔ maxBytes≠UInt64.ofNat u64Max) ∧
    ∀ moves s,run (.new maxBytes permitUnit) idle moves=s→(∀ bytes,.holding bytes∉s.calls) →
      ∀ bytes failures,(run (.new maxBytes permitUnit) s
        (aloneMoves bytes s.calls.length failures)).calls[s.calls.length]?=
          some (.holding ((UploadBudget.new maxBytes permitUnit).need bytes)) := by
  constructor
  · constructor
    · rintro h rfl
      have htwo := (h twoLargest).1
      rw [run_twoLargest (maxBytes_largest permitUnit)] at htwo
      revert htwo
      decide
    · intro hne moves
      have hcounted := @counted_run (.new maxBytes permitUnit) moves
      have hmax : (UploadBudget.new maxBytes permitUnit).maxBytes≠u64Max := by
        intro heq
        apply hne
        have hnat : maxBytes.toNat=u64Max := by
          unfold UploadBudget.new u64Max at heq
          unfold u64Max
          dsimp only at heq
          omega
        rw [← hnat,UInt64.ofNat_toNat]
      have hwithin := hcounted.within hmax
      have hle := (UploadBudget.new maxBytes permitUnit).maxBytes_le
      have hinFlight := hcounted.inFlight
      unfold u64Max at hle
      omega
  · rintro moves s hrun hnone bytes failures
    have hcounted := @counted_run (.new maxBytes permitUnit) moves
    rw [hrun] at hcounted
    have hheld : s.held=0 := by
      refine sum_eq_zero fun bytes hbytes => ?_
      obtain ⟨call,hcall,rfl⟩ := mem_map.mp hbytes
      cases call with
      | holding bytes => exact absurd hcall (hnone bytes)
      | _ => rfl
    have hidle : s=⟨0,s.calls⟩ := by
      have hinFlight := hcounted.inFlight
      rw [hheld,Nat.zero_mod] at hinFlight
      rw [← hinFlight]
    rw [hidle,run_aloneMoves]
    exact List.getElem?_concat_length

/-- An upload that is larger than the budget is admitted while nothing else is in flight,
although its first exchange fails. -/
theorem oversized_upload_admitted_when_idle :
    (run (.new 33554432 5242880) idle (aloneMoves 104857600 0 1)).calls[0]?=
        some (.holding 33554432) ∧
      (run (.new 33554432 5242880) idle (aloneMoves 104857600 0 1)).inFlight=
        (run (.new 33554432 5242880) idle (aloneMoves 104857600 0 1)).held :=
  ⟨(inFlight_eq_held_iff 33554432 5242880).2 [] idle rfl (fun _ => not_mem_nil) 104857600 1,
    ((inFlight_eq_held_iff 33554432 5242880).1.mpr (by decide) _).1⟩

/-- Two uploads that are each charged a budget of the largest number are both admitted. -/
theorem largest_budget_wraps :
    (run (.new (UInt64.ofNat u64Max) 4096) idle twoLargest).inFlight=2^64-2 ∧
      (run (.new (UInt64.ofNat u64Max) 4096) idle twoLargest).held=2*(2^64-1) := by
  rw [run_twoLargest (maxBytes_largest 4096)]
  decide

end NebularOs.UploadBudgets
