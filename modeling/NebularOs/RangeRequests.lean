import Mathlib
import NebularOs.PresignedUrls
import NebularOs.SeparatedText
import NebularOs.TrimmedText

/-!
# Range headers

A download may ask for a range of bytes. A header that is no single range of bytes is
ignored, one that asks for bytes which the object does not have is refused, and any
other is answered with the bytes it asks for, as far as there are any.

The headers that are answered are described by a grammar apart from the parser. The
parser reads numbers with the library of its language, which takes a plus sign, and it
drops blanks around them, so it answers more headers than the standard's grammar has.
-/

namespace NebularOs.RangeRequests

open BlobFilenames PresignedUrls SeparatedText TrimmedText List Option

/-- How a download should treat its range header. -/
inductive RangeRequest
  /-- The whole object is served. -/
  | ignore
  /-- Bytes from the first position to the last are served. -/
  | satisfiable (start stop : ℕ)
  /-- No byte that was asked for exists. -/
  | unsatisfiable
  deriving DecidableEq

/-- The last position a range names, behind its first one: none, or a number that is not
smaller. -/
def evaluateLast (start : ℕ) (last : Text) : Option (Option ℕ) :=
  if last.isEmpty then some none
  else match parseU64 last with
    | some v => if start≤v then some (some v) else none
    | none => none

/-- Evaluating what stands before and behind the hyphen of a range. -/
def evaluateParts (first last : Text) (totalSize : ℕ) : RangeRequest :=
  if first.isEmpty then
    match parseU64 last with
    | none => .ignore
    | some suffix =>
      if suffix=0 ∨ totalSize=0 then .unsatisfiable
      else .satisfiable (totalSize-min suffix totalSize) (totalSize-1)
  else match parseU64 first with
    | none => .ignore
    | some start => match evaluateLast start last with
      | none => .ignore
      | some last =>
        if totalSize ≤ start then .unsatisfiable
        else .satisfiable start (last.elim (totalSize-1) fun v => min v (totalSize-1))

/-- Evaluating a range header for an object of some size. -/
def evaluateRange (value : Text) (totalSize : ℕ) : RangeRequest :=
  let value := trim isWhitespace value
  if (value.take 6).map Char.toLower≠"bytes=".toList then .ignore
  else
    let spec := value.drop 6
    if spec.contains ',' then .ignore
    else match splitOnce '-' spec with
      | none => .ignore
      | some (first,last) =>
        evaluateParts (trim isWhitespace first) (trim isWhitespace last) totalSize

/-- What a header asks for. -/
inductive RangeSpec
  /-- From a first position to a last one. -/
  | between (first last : ℕ)
  /-- From a first position on. -/
  | onward (first : ℕ)
  /-- As many bytes from the end. -/
  | suffix (count : ℕ)
  deriving DecidableEq

/-- Positions of an object that a header asks for. -/
def RangeSpec.positions (total : ℕ) : RangeSpec→Finset ℕ
  | .between first last => (Finset.range total).filter fun p => first≤p ∧ p≤last
  | .onward first => (Finset.range total).filter fun p => first≤p
  | .suffix count => (Finset.range total).filter fun p => total≤p+count

/-- A number: some digits whose value is a 64-bit number. -/
def Number (text : Text) (n : ℕ) : Prop :=
  text≠[] ∧ (∀ c∈text,c.isDigit=true) ∧ n=Nat.ofDigitChars 10 text 0 ∧ n≤u64Max

/-- Nothing but white space. -/
def Blank (text : Text) : Prop := ∀ c∈text,isWhitespace c=true

/-- A number with blanks around it and perhaps a plus sign. -/
def LooseNumber (text : Text) (n : ℕ) : Prop :=
  ∃ before sign digits after,text=before++(sign++digits)++after ∧ Blank before ∧ Blank after ∧
    (sign=[] ∨ sign=['+']) ∧ Number digits n

/-- Headers that ask for a range, where some texts count as numbers and some as
nothing. -/
inductive Asks (number : Text→ℕ→Prop) (nothing : Text→Prop) : Text→RangeSpec→Prop
  | between {unit first last : Text} {m n : ℕ} (hunit : unit.map Char.toLower="bytes=".toList)
      (hfirst : number first m) (hlast : number last n) (hle : m≤n) :
      Asks number nothing (unit++first++ '-'::last) (.between m n)
  | onward {unit first last : Text} {m : ℕ} (hunit : unit.map Char.toLower="bytes=".toList)
      (hfirst : number first m) (hlast : nothing last) :
      Asks number nothing (unit++first++ '-'::last) (.onward m)
  | suffix {unit first last : Text} {n : ℕ} (hunit : unit.map Char.toLower="bytes=".toList)
      (hfirst : nothing first) (hlast : number last n) :
      Asks number nothing (unit++first++ '-'::last) (.suffix n)

/-- Headers of the standard's grammar. -/
def AsksStrictly : Text→RangeSpec→Prop := Asks Number fun text => text=[]

/-- Headers with blanks and plus signs. -/
def AsksLoosely : Text→RangeSpec→Prop := Asks LooseNumber Blank

/-- The answer to what a header asks for. -/
def Answers (spec : RangeSpec) (total : ℕ) : RangeRequest→Prop
  | .ignore => False
  | .satisfiable start stop => start ≤ stop ∧ spec.positions total=Finset.Icc start stop
  | .unsatisfiable => spec.positions total=∅

/-- Headers of the grammar are answered, and the others are ignored. -/
def Conforms (value : Text) (total : ℕ) : Prop :=
  (∀ spec,AsksStrictly (trim isWhitespace value) spec → Answers spec total (evaluateRange value total)) ∧
    ((¬∃ spec,AsksStrictly (trim isWhitespace value) spec)→evaluateRange value total=.ignore)

section Numbers

variable {text : Text} {n : ℕ}

/-- Numbers that the library of the language reads. -/
theorem parseU64_eq_some_iff : parseU64 text=some n ↔
    ∃ sign digits,text=sign++digits ∧ (sign=[] ∨ sign=['+']) ∧ Number digits n := by
  have hread : ∀ digits : Text,(if digits.isEmpty || !digits.all Char.isDigit then none
      else if Nat.ofDigitChars 10 digits 0≤u64Max then some (Nat.ofDigitChars 10 digits 0)
        else none)=some n ↔ Number digits n := by
    intro digits
    unfold Number
    by_cases hne : digits=[]
    · simp [hne]
    by_cases hdigits : ∀ c∈digits,c.isDigit=true
    · have hall : (digits.isEmpty || !digits.all Char.isDigit)=false := by
        simpa [hne] using hdigits
      rw [hall,if_neg (by decide)]
      by_cases hmax : Nat.ofDigitChars 10 digits 0≤u64Max
      · rw [if_pos hmax]
        refine ⟨fun h => ?_,fun h => by rw [h.2.2.1]⟩
        cases h
        exact ⟨hne,hdigits,rfl,hmax⟩
      · rw [if_neg hmax]
        refine ⟨fun h => (by cases h),fun h => ?_⟩
        rw [h.2.2.1] at h
        exact absurd h.2.2.2 hmax
    · have hall : (digits.isEmpty || !digits.all Char.isDigit)=true := by
        simpa [hne] using hdigits
      rw [hall,if_pos rfl]
      exact ⟨fun h => (by cases h),fun h => absurd h.2.1 hdigits⟩
  unfold parseU64
  dsimp only
  by_cases hplus : text.head?=some '+'
  · rw [if_pos hplus,hread]
    obtain ⟨rest,rfl⟩ : ∃ rest,text= '+'::rest := by
      cases text with
      | nil => cases hplus
      | cons first rest => exact ⟨rest,by rw [Option.some.inj hplus]⟩
    refine ⟨fun h => ⟨['+'],rest,rfl,Or.inr rfl,h⟩,?_⟩
    rintro ⟨sign,digits,htext,rfl | rfl,hnumber⟩
    · rw [nil_append] at htext
      have hdigit := hnumber.2.1 '+' (htext ▸ mem_cons_self)
      exact absurd hdigit (by decide)
    · rwa [tail_cons,(List.cons.inj htext).2]
  · rw [if_neg hplus,hread]
    refine ⟨fun h => ⟨[],text,rfl,Or.inl rfl,h⟩,?_⟩
    rintro ⟨sign,digits,rfl,rfl | rfl,hnumber⟩
    · exact hnumber
    · exact absurd rfl hplus

theorem blank_iff : Blank text ↔ trim isWhitespace text=[] := trim_eq_nil_iff.symm

theorem isWhitespace_of_isDigit {c : Char} (h : c.isDigit=true) : isWhitespace c=false := by
  have hbounds : 48 ≤ c.toNat ∧ c.toNat≤57 := by
    simp only [Char.isDigit,Bool.and_eq_true,decide_eq_true_eq] at h
    exact h
  unfold isWhitespace
  simp only [Bool.or_eq_false_iff,Bool.and_eq_false_iff,decide_eq_false_iff_not,beq_eq_false_iff_ne]
  omega

theorem looseNumber_iff : LooseNumber text n ↔ parseU64 (trim isWhitespace text)=some n := by
  rw [parseU64_eq_some_iff]
  constructor
  · rintro ⟨before,sign,digits,after,rfl,hbefore,hafter,hsign,hnumber⟩
    refine ⟨sign,digits,?_,hsign,hnumber⟩
    rw [trim_append_blank hafter,trim_blank_append hbefore]
    refine trim_of_clean fun c hc => ?_
    rcases mem_append.mp hc with hsigned | hdigit
    · rcases hsign with rfl | rfl
      · cases hsigned
      rw [mem_singleton.mp hsigned]
      decide
    · exact isWhitespace_of_isDigit (hnumber.2.1 c hdigit)
  · rintro ⟨sign,digits,htrim,hsign,hnumber⟩
    obtain ⟨before,after,htext,hbefore,hafter⟩ := exists_blanks isWhitespace text
    rw [htrim] at htext
    exact ⟨before,sign,digits,after,htext,hbefore,hafter,hsign,hnumber⟩

theorem Number.loose (h : Number text n) : LooseNumber text n :=
  ⟨[],[],text,[],by simp,fun _ hc => (by cases hc),fun _ hc => (by cases hc),Or.inl rfl,h⟩

theorem LooseNumber.mem (h : LooseNumber text n) {c : Char} (hc : c∈text) :
    isWhitespace c=true ∨ c= '+' ∨ c.isDigit=true := by
  obtain ⟨before,sign,digits,after,rfl,hbefore,hafter,hsign,hnumber⟩ := h
  simp only [mem_append] at hc
  rcases hc with (hblank | hsigned | hdigit) | hblank
  · exact Or.inl (hbefore c hblank)
  · rcases hsign with rfl | rfl
    · cases hsigned
    · exact Or.inr (Or.inl (mem_singleton.mp hsigned))
  · exact Or.inr (Or.inr (hnumber.2.1 c hdigit))
  · exact Or.inl (hafter c hblank)

theorem LooseNumber.clean (h : LooseNumber text n) : ','∉text ∧ '-'∉text := by
  refine ⟨fun hc => ?_,fun hc => ?_⟩
  · exact absurd (h.mem hc) (by decide)
  · exact absurd (h.mem hc) (by decide)

theorem Blank.clean (h : Blank text) : ','∉text ∧ '-'∉text :=
  ⟨fun hc => absurd (h _ hc) (by decide),fun hc => absurd (h _ hc) (by decide)⟩

end Numbers

section Answered

variable {value unit first last : Text} {total m n : ℕ}

theorem evaluateRange_parts (hvalue : trim isWhitespace value=unit++first++ '-'::last)
    (hunit : unit.map Char.toLower="bytes=".toList) (hfirst : ','∉first ∧ '-'∉first)
    (hlast : ','∉last) : evaluateRange value total=
      evaluateParts (trim isWhitespace first) (trim isWhitespace last) total := by
  have hlength : unit.length=6 := by
    have hsame := congrArg List.length hunit
    simpa using hsame
  have htake : (unit++first++ '-'::last).take 6=unit := by
    rw [append_assoc,take_left' hlength]
  have hdrop : (unit++first++ '-'::last).drop 6=first++ '-'::last := by
    rw [append_assoc,drop_left' hlength]
  have hcomma : (first++ '-'::last).contains ','=false := by
    rw [contains_eq_mem,decide_eq_false_iff_not,mem_append,mem_cons,not_or,not_or]
    exact ⟨hfirst.1,by decide,hlast⟩
  unfold evaluateRange
  simp only [hvalue,htake,hdrop,hcomma,splitOnce_append_cons hfirst.2]
  rw [if_neg (not_not.mpr hunit),if_neg (by decide)]

theorem isEmpty_of_parseU64 {text : Text} (h : parseU64 text=some n) : text.isEmpty=false := by
  cases text with
  | nil => cases h
  | cons c text => rfl

theorem answers_between (hfirst : parseU64 first=some m) (hlast : parseU64 last=some n)
    (hle : m≤n) : Answers (.between m n) total (evaluateParts first last total) := by
  have hread : evaluateLast m last=some (some n) := by
    rw [evaluateLast,isEmpty_of_parseU64 hlast,if_neg (by decide),hlast]
    exact if_pos hle
  rw [evaluateParts,isEmpty_of_parseU64 hfirst,if_neg (by decide),hfirst]
  dsimp only
  rw [hread]
  split_ifs with hpast
  · refine Finset.filter_eq_empty_iff.mpr fun p hp => ?_
    have hbound := Finset.mem_range.mp hp
    omega
  · refine ⟨by simp only [elim_some]; omega,?_⟩
    ext p
    simp only [RangeSpec.positions,Finset.mem_filter,Finset.mem_range,Finset.mem_Icc,
      elim_some]
    omega

theorem answers_onward (hfirst : parseU64 first=some m) :
    Answers (.onward m) total (evaluateParts first [] total) := by
  have hread : evaluateLast m []=some none := rfl
  rw [evaluateParts,isEmpty_of_parseU64 hfirst,if_neg (by decide),hfirst]
  dsimp only
  rw [hread]
  split_ifs with hpast
  · refine Finset.filter_eq_empty_iff.mpr fun p hp => ?_
    have hbound := Finset.mem_range.mp hp
    omega
  · refine ⟨by simp only [elim_none]; omega,?_⟩
    ext p
    simp only [RangeSpec.positions,Finset.mem_filter,Finset.mem_range,Finset.mem_Icc,
      elim_none]
    omega

theorem answers_suffix (hlast : parseU64 last=some n) :
    Answers (.suffix n) total (evaluateParts [] last total) := by
  rw [evaluateParts,isEmpty_nil,if_pos rfl,hlast]
  dsimp only
  split_ifs with hnone
  · refine Finset.filter_eq_empty_iff.mpr fun p hp => ?_
    have hbound := Finset.mem_range.mp hp
    omega
  · refine ⟨by omega,?_⟩
    ext p
    simp only [RangeSpec.positions,Finset.mem_filter,Finset.mem_range,Finset.mem_Icc]
    omega

theorem answers_of_asksLoosely {spec : RangeSpec} (h : AsksLoosely (trim isWhitespace value) spec) :
    Answers spec total (evaluateRange value total) := by
  generalize hvalue : trim isWhitespace value=text at h
  cases h with
  | between hunit hfirst hlast hle =>
    rw [evaluateRange_parts hvalue hunit hfirst.clean hlast.clean.1]
    exact answers_between (looseNumber_iff.mp hfirst) (looseNumber_iff.mp hlast) hle
  | onward hunit hfirst hlast =>
    rw [evaluateRange_parts hvalue hunit hfirst.clean hlast.clean.1,blank_iff.mp hlast]
    exact answers_onward (looseNumber_iff.mp hfirst)
  | suffix hunit hfirst hlast =>
    rw [evaluateRange_parts hvalue hunit hfirst.clean hlast.clean.1,blank_iff.mp hfirst]
    exact answers_suffix (looseNumber_iff.mp hlast)

theorem asks_of_evaluateParts (hunit : unit.map Char.toLower="bytes=".toList)
    (h : evaluateParts (trim isWhitespace first) (trim isWhitespace last) total≠.ignore) :
    ∃ spec,AsksLoosely (unit++first++ '-'::last) spec := by
  unfold evaluateParts at h
  split at h
  · rename_i hempty
    cases hlast : parseU64 (trim isWhitespace last) with
    | none =>
      rw [hlast] at h
      exact absurd rfl h
    | some n => exact ⟨.suffix n,.suffix hunit (blank_iff.mpr (isEmpty_iff.mp hempty))
        (looseNumber_iff.mpr hlast)⟩
  · cases hfirst : parseU64 (trim isWhitespace first) with
    | none =>
      rw [hfirst] at h
      exact absurd rfl h
    | some m =>
      rw [hfirst] at h
      have hnumber := looseNumber_iff.mpr hfirst
      by_cases hempty : (trim isWhitespace last).isEmpty=true
      · exact ⟨.onward m,.onward hunit hnumber (blank_iff.mpr (isEmpty_iff.mp hempty))⟩
      cases hlast : parseU64 (trim isWhitespace last) with
      | none =>
        dsimp only at h
        rw [evaluateLast,if_neg hempty,hlast] at h
        exact absurd rfl h
      | some n =>
        by_cases hle : m≤n
        · exact ⟨.between m n,.between hunit hnumber (looseNumber_iff.mpr hlast) hle⟩
        · dsimp only at h
          rw [evaluateLast,if_neg hempty,hlast] at h
          dsimp only at h
          rw [if_neg hle] at h
          exact absurd rfl h

theorem asksLoosely_of_ne_ignore (h : evaluateRange value total≠.ignore) :
    ∃ spec,AsksLoosely (trim isWhitespace value) spec := by
  unfold evaluateRange at h
  dsimp only at h
  split at h
  · exact absurd rfl h
  rename_i hunit
  split at h
  · exact absurd rfl h
  cases hsplit : splitOnce '-' ((trim isWhitespace value).drop 6) with
  | none =>
    rw [hsplit] at h
    exact absurd rfl h
  | some parts =>
    obtain ⟨first,last⟩ := parts
    rw [hsplit] at h
    have hwhole : trim isWhitespace value=(trim isWhitespace value).take 6++first++ '-'::last := by
      rw [append_assoc,← (splitOnce_eq_some_iff.mp hsplit).1,take_append_drop]
    rw [hwhole]
    exact asks_of_evaluateParts (not_not.mp hunit) h

theorem AsksLoosely.of_strict {text : Text} {spec : RangeSpec} (h : AsksStrictly text spec) :
    AsksLoosely text spec := by
  have hblank : Blank [] := fun _ hc => by cases hc
  cases h with
  | between hunit hfirst hlast hle => exact .between hunit hfirst.loose hlast.loose hle
  | onward hunit hfirst hlast => exact .onward hunit hfirst.loose (hlast ▸ hblank)
  | suffix hunit hfirst hlast => exact .suffix hunit (hfirst ▸ hblank) hlast.loose

/-- A header is treated as the grammar says if it is of the grammar, or would not even
be with blanks around its numbers and plus signs before them. -/
theorem conforms_iff (value : Text) (total : ℕ) : Conforms value total ↔
    (∃ spec,AsksStrictly (trim isWhitespace value) spec) ∨
      ¬∃ spec,AsksLoosely (trim isWhitespace value) spec := by
  constructor
  · rintro ⟨_,hothers⟩
    by_cases hstrict : ∃ spec,AsksStrictly (trim isWhitespace value) spec
    · exact Or.inl hstrict
    · refine Or.inr fun ⟨spec,hloose⟩ => ?_
      have hanswer : Answers spec total (evaluateRange value total) := answers_of_asksLoosely hloose
      rwa [hothers hstrict] at hanswer
  · intro h
    refine ⟨fun spec hstrict => answers_of_asksLoosely (.of_strict hstrict),fun hstrict => ?_⟩
    rcases h with hsome | hloose
    · exact absurd hsome hstrict
    by_contra hne
    exact hloose (asksLoosely_of_ne_ignore hne)

theorem plus_not_mem_of_asksStrictly {text : Text} {spec : RangeSpec}
    (h : AsksStrictly text spec) : '+'∉text := by
  have hunit : ∀ {unit : Text},unit.map Char.toLower="bytes=".toList → '+'∉unit := by
    intro unit hunit hmem
    have hlower := mem_map_of_mem (f := Char.toLower) hmem
    rw [hunit] at hlower
    exact absurd hlower (by decide)
  have hnumber : ∀ {digits : Text} {n : ℕ},Number digits n → '+'∉digits := by
    intro digits n hnumber hmem
    exact absurd (hnumber.2.1 _ hmem) (by decide)
  intro hmem
  cases h with
  | between hbytes hfirst hlast _ =>
    simp only [mem_append,mem_cons] at hmem
    rcases hmem with (hmem | hmem) | heq | hmem
    · exact hunit hbytes hmem
    · exact hnumber hfirst hmem
    · exact absurd heq (by decide)
    · exact hnumber hlast hmem
  | onward hbytes hfirst hlast =>
    rw [hlast] at hmem
    simp only [mem_append,mem_cons,not_mem_nil,or_false] at hmem
    rcases hmem with (hmem | hmem) | heq
    · exact hunit hbytes hmem
    · exact hnumber hfirst hmem
    · exact absurd heq (by decide)
  | suffix hbytes hfirst hlast =>
    rw [hfirst] at hmem
    simp only [mem_append,mem_cons,not_mem_nil,or_false] at hmem
    rcases hmem with hmem | heq | hmem
    · exact hunit hbytes hmem
    · exact absurd heq (by decide)
    · exact hnumber hlast hmem

/-- A header with a plus sign is answered as if the sign were not there. -/
theorem plus_sign_answered :
    evaluateRange "bytes=+1-2".toList 10=.satisfiable 1 2 ∧ ¬Conforms "bytes=+1-2".toList 10 := by
  have hanswer : evaluateRange "bytes=+1-2".toList 10=.satisfiable 1 2 := by decide
  refine ⟨hanswer,fun ⟨_,hothers⟩ => ?_⟩
  have hstrict : ¬∃ spec,AsksStrictly (trim isWhitespace "bytes=+1-2".toList) spec :=
    fun ⟨_,h⟩ => plus_not_mem_of_asksStrictly h (by decide)
  rw [hothers hstrict] at hanswer
  cases hanswer

end Answered

end NebularOs.RangeRequests
