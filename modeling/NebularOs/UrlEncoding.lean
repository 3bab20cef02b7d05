import Mathlib
import NebularOs.PercentCoding
import NebularOs.Utf8Scanning

/-!
# Percent encoding in URLs

Paths and queries arrive percent-encoded. One reader decodes escapes and nothing
else; the reader of forms also takes a plus sign for a space, splits the query at
its separators and turns the bytes into text. A writer that keeps some bytes and
escapes all others is undone by the first reader as long as it escapes the
percent sign.
-/

namespace UrlEncoding

open PercentCoding Utf8Scanning List Function

/-- Byte strings. -/
abbrev Bytes := List UInt8

/-- The byte that two hexadecimal digits of either case name. -/
def hexByte (b₁ b₂ : UInt8) : Option UInt8 :=
  match hexDigitValue b₁,hexDigitValue b₂ with
  | some high,some low => some (UInt8.ofNat (16*high+low))
  | _,_ => none

/-- Decoding of escapes. A percent sign that two digits do not follow is kept. -/
def decodeBinary : Bytes→Bytes
  | [] => []
  | b::[] => [b]
  | b::b₁::[] => [b,b₁]
  | b::b₁::b₂::rest =>
    if b=percentSign then
      match hexByte b₁ b₂ with
      | some byte => byte::decodeBinary rest
      | none => b::decodeBinary (b₁::b₂::rest)
    else b::decodeBinary (b₁::b₂::rest)

/-- Encoding that keeps some bytes and escapes the others. -/
def encodeBytes (keeps : UInt8→Bool) (bytes : Bytes) : Bytes :=
  bytes.flatMap fun b => if keeps b then [b] else escapeByte b

theorem decodeBinary_literal {b : UInt8} (h : b≠percentSign) (rest : Bytes) :
    decodeBinary (b::rest)=b::decodeBinary rest := by
  match rest with
  | [] => rfl
  | [_] => rfl
  | _::_::_ => rw [decodeBinary,if_neg h]

theorem hexByte_escape (b : UInt8) :
    hexByte (upperHexDigit (b.toNat/16)) (upperHexDigit (b.toNat%16))=some b := by
  have hall : ∀ n : Fin 256,hexByte (upperHexDigit (n.val/16)) (upperHexDigit (n.val%16))=
      some (UInt8.ofNat n.val) := by decide +kernel
  have hb := hall ⟨b.toNat,b.toNat_lt⟩
  rwa [UInt8.ofNat_toNat] at hb

theorem decodeBinary_escapeByte (b : UInt8) (rest : Bytes) :
    decodeBinary (escapeByte b++rest)=b::decodeBinary rest := by
  show decodeBinary (percentSign::upperHexDigit (b.toNat/16)::upperHexDigit (b.toNat%16)::rest)=_
  rw [decodeBinary,if_pos rfl,hexByte_escape]

variable {keeps : UInt8→Bool}

theorem decodeBinary_encodeBytes (h : keeps percentSign=false) (bytes : Bytes) :
    decodeBinary (encodeBytes keeps bytes)=bytes := by
  induction bytes with
  | nil => rfl
  | cons b bytes ih =>
    have hcons : encodeBytes keeps (b::bytes)=
        (if keeps b then [b] else escapeByte b)++encodeBytes keeps bytes := rfl
    rw [hcons]
    by_cases hb : keeps b=true
    · have hne : b≠percentSign := by
        rintro rfl
        rw [h] at hb
        cases hb
      rw [if_pos hb,singleton_append,decodeBinary_literal hne,ih]
    · rw [if_neg hb,decodeBinary_escapeByte,ih]

variable {c : UInt8}

theorem mem_escapeByte {b : UInt8} (h : c∈escapeByte b) :
    c=percentSign ∨ (0x30 ≤ c ∧ c≤0x39) ∨ (0x41 ≤ c ∧ c≤0x46) := by
  have hdigit : ∀ n : Fin 16,(0x30≤upperHexDigit n.val ∧ upperHexDigit n.val≤0x39) ∨
      (0x41≤upperHexDigit n.val ∧ upperHexDigit n.val≤0x46) := by decide +kernel
  have hb := b.toNat_lt
  simp only [escapeByte,mem_cons,not_mem_nil,or_false] at h
  rcases h with rfl | rfl | rfl
  · exact Or.inl rfl
  · exact Or.inr (hdigit ⟨b.toNat/16,by omega⟩)
  · exact Or.inr (hdigit ⟨b.toNat%16,by omega⟩)

theorem not_mem_encodeBytes (hkeeps : keeps c=false) (hpercent : c≠percentSign)
    (hdigit : ¬(0x30 ≤ c ∧ c≤0x39)) (hletter : ¬(0x41 ≤ c ∧ c≤0x46)) (bytes : Bytes) :
    c∉encodeBytes keeps bytes := by
  intro hmem
  obtain ⟨b,_,hc⟩ := mem_flatMap.mp hmem
  by_cases hb : keeps b=true
  · rw [if_pos hb,mem_singleton] at hc
    rw [hc,hb] at hkeeps
    cases hkeeps
  · rw [if_neg hb] at hc
    rcases mem_escapeByte hc with hc | hc | hc
    · exact hpercent hc
    · exact hdigit hc
    · exact hletter hc

theorem mem_decodeBinary_of_mem (hpercent : c≠percentSign) (hdigit : hexDigitValue c=none)
    {bytes : Bytes} (h : c∈bytes) : c∈decodeBinary bytes := by
  fun_induction decodeBinary bytes with
  | case1 => exact h
  | case2 => exact h
  | case3 => exact h
  | case4 b₁ b₂ rest byte hbyte ih =>
    simp only [mem_cons] at h
    rcases h with h | rfl | rfl | h
    · exact absurd h hpercent
    · simp [hexByte,hdigit] at hbyte
    · simp [hexByte,hdigit] at hbyte
    · exact mem_cons_of_mem _ (ih h)
  | case5 b₁ b₂ rest _ ih =>
    rcases mem_cons.mp h with h | h
    · exact absurd h hpercent
    · exact mem_cons_of_mem _ (ih h)
  | case6 b b₁ b₂ rest _ ih =>
    rcases mem_cons.mp h with h | h
    · exact h ▸ mem_cons_self
    · exact mem_cons_of_mem _ (ih h)

/-- A name and a value, split at the first equals sign; all is the name where
there is none. -/
def splitPair (pair : Bytes) : Bytes×Bytes :=
  (pair.takeWhile (· ≠ 0x3D),(pair.dropWhile (· ≠ 0x3D)).drop 1)

/-- The pairs of a query, empty ones left out. -/
def queryPairs (query : Bytes) : List (Bytes×Bytes) :=
  ((query.splitOn 0x26).filter fun pair => !pair.isEmpty).map splitPair

/-- Plus signs stand for spaces in forms. -/
def plusToSpace (bytes : Bytes) : Bytes :=
  bytes.map fun b => if b=0x2B then 0x20 else b

/-- A name or value of a form as text. -/
def formText (bytes : Bytes) : List Char :=
  fromUtf8Lossy (decodeBinary (plusToSpace bytes))

/-- The parameters of a query, as handlers of forms read it. -/
def formParse (query : Bytes) : List (List Char×List Char) :=
  (queryPairs query).map fun pair => (formText pair.1,formText pair.2)

/-- Pairs of a query without their escapes. -/
def decodedPairs (query : Bytes) : List (Bytes×Bytes) :=
  (queryPairs query).map fun pair => (decodeBinary pair.1,decodeBinary pair.2)

/-- A query without escaped or plain plus signs. -/
def PlusFree (query : Bytes) : Prop :=
  ∀ pair∈decodedPairs query,0x2B∉pair.1 ∧ 0x2B∉pair.2

theorem plusToSpace_eq_self {bytes : Bytes} (h : 0x2B∉bytes) : plusToSpace bytes=bytes := by
  have hcongr : plusToSpace bytes=bytes.map id := map_congr_left fun b hb => by
    rw [if_neg (ne_of_mem_of_not_mem hb h),id]
  rw [hcongr,map_id]

theorem plus_not_mem_plusToSpace (bytes : Bytes) : 0x2B∉plusToSpace bytes := by
  intro hmem
  obtain ⟨b,_,hb⟩ := mem_map.mp hmem
  by_cases hplus : b=0x2B
  · rw [if_pos hplus] at hb
    revert hb
    decide
  · rw [if_neg hplus] at hb
    exact hplus hb

theorem formText_of_plus_not_mem {bytes : Bytes} (h : 0x2B∉decodeBinary bytes) :
    formText bytes=fromUtf8Lossy (decodeBinary bytes) := by
  have hplus : 0x2B∉bytes := fun hmem =>
    h (mem_decodeBinary_of_mem (by decide) (by decide) hmem)
  rw [formText,plusToSpace_eq_self hplus]

theorem formParse_of_plusFree {query : Bytes} (h : PlusFree query) : formParse query=
      (decodedPairs query).map fun pair => (fromUtf8Lossy pair.1,fromUtf8Lossy pair.2) := by
  rw [formParse,decodedPairs,map_map]
  refine map_congr_left fun pair hpair => ?_
  have hplus := h _ (mem_map_of_mem hpair)
  simp only [comp_apply,formText_of_plus_not_mem hplus.1,formText_of_plus_not_mem hplus.2]

/-- A plus sign that an encoding keeps is read as a space by forms, and everything
else as it was. -/
theorem decodeBinary_plusToSpace_encodeBytes (hpercent : keeps percentSign=false)
    (hplus : keeps 0x2B=true) (bytes : Bytes) :
    decodeBinary (plusToSpace (encodeBytes keeps bytes))=plusToSpace bytes := by
  induction bytes with
  | nil => rfl
  | cons b bytes ih =>
    have hcons : plusToSpace (encodeBytes keeps (b::bytes))=
        plusToSpace (if keeps b then [b] else escapeByte b)++
          plusToSpace (encodeBytes keeps bytes) := map_append
    have hspace : plusToSpace (b::bytes)=(if b=0x2B then 0x20 else b)::plusToSpace bytes := rfl
    rw [hcons,hspace]
    by_cases hb : keeps b=true
    · have hne : (if b=0x2B then 0x20 else b)≠percentSign := by
        by_cases hbplus : b=0x2B
        · rw [if_pos hbplus]
          decide
        · rw [if_neg hbplus]
          rintro rfl
          rw [hpercent] at hb
          cases hb
      have hsingle : plusToSpace [b]++plusToSpace (encodeBytes keeps bytes)=
          (if b=0x2B then 0x20 else b)::plusToSpace (encodeBytes keeps bytes) := rfl
      rw [if_pos hb,hsingle,decodeBinary_literal hne,ih]
    · have hbplus : b≠0x2B := by
        rintro rfl
        exact hb hplus
      have hescape : 0x2B∉escapeByte b := fun hmem => by
        rcases mem_escapeByte hmem with h | h | h
        · revert h
          decide
        · revert h
          decide
        · revert h
          decide
      rw [if_neg hb,plusToSpace_eq_self hescape,decodeBinary_escapeByte,ih,if_neg hbplus]

/-- Another spelling of a query: every pair is decoded and encoded again. -/
def respell (keeps : UInt8→Bool) (query : Bytes) : Bytes :=
  [0x26].intercalate ((decodedPairs query).map fun pair =>
    encodeBytes keeps pair.1++[0x3D]++encodeBytes keeps pair.2)

/-- Encodings that escape what structures a query. -/
structure Spelling (keeps : UInt8→Bool) : Prop where
  /-- Percent signs are escaped. -/
  percent : keeps percentSign=false
  /-- Separators of pairs are escaped. -/
  ampersand : keeps 0x26=false
  /-- Separators of name and value are escaped. -/
  equals : keeps 0x3D=false

theorem splitPair_append {name : Bytes} (h : 0x3D∉name) (value : Bytes) :
    splitPair (name++[0x3D]++value)=(name,value) := by
  have hall : ∀ b∈name,decide (b≠0x3D)=true := fun b hb =>
    decide_eq_true (ne_of_mem_of_not_mem hb h)
  rw [splitPair,append_assoc,takeWhile_append_of_pos hall,
    dropWhile_append_of_pos hall]
  simp

theorem queryPairs_join {pairs : List (Bytes×Bytes)}
    (h : ∀ pair∈pairs,0x3D∉pair.1 ∧ 0x26∉pair.1 ∧ 0x26∉pair.2) :
    queryPairs ([0x26].intercalate (pairs.map fun pair => pair.1++[0x3D]++pair.2))=pairs := by
  by_cases hnil : pairs=[]
  · rw [hnil]
    rfl
  have hsplit : ([0x26].intercalate (pairs.map fun pair => pair.1++[0x3D]++pair.2)).splitOn 0x26=
      pairs.map fun pair => pair.1++[0x3D]++pair.2 := by
    refine splitOn_intercalate 0x26 (fun part hpart => ?_) (by simpa using hnil)
    obtain ⟨pair,hpair,rfl⟩ := mem_map.mp hpart
    simp only [mem_append,mem_singleton,not_or]
    exact ⟨⟨(h pair hpair).2.1,by decide⟩,(h pair hpair).2.2⟩
  have hfilter : (pairs.map fun pair => pair.1++[0x3D]++pair.2).filter
      (fun pair => !pair.isEmpty)=pairs.map fun pair => pair.1++[0x3D]++pair.2 := by
    refine filter_eq_self.mpr fun part hpart => ?_
    obtain ⟨pair,_,rfl⟩ := mem_map.mp hpart
    simp
  rw [queryPairs,hsplit,hfilter,map_map]
  refine (map_congr_left fun pair hpair => ?_).trans (map_id _)
  exact splitPair_append (h pair hpair).1 _

theorem queryPairs_respell (h : Spelling keeps) (query : Bytes) : queryPairs (respell keeps query)=
      (decodedPairs query).map fun pair => (encodeBytes keeps pair.1,encodeBytes keeps pair.2) := by
  have hampersand : ∀ bytes,0x26∉encodeBytes keeps bytes :=
    not_mem_encodeBytes h.ampersand (by decide) (by decide) (by decide)
  rw [← @queryPairs_join ((decodedPairs query).map _) fun pair hpair => ?_,map_map]
  · rfl
  · obtain ⟨decoded,_,rfl⟩ := mem_map.mp hpair
    exact ⟨not_mem_encodeBytes h.equals (by decide) (by decide) (by decide) _,hampersand _,
      hampersand _⟩

theorem decodedPairs_respell (h : Spelling keeps) (query : Bytes) :
    decodedPairs (respell keeps query)=decodedPairs query := by
  have hdecode := decodeBinary_encodeBytes h.percent
  rw [decodedPairs,queryPairs_respell h,map_map]
  refine (map_congr_left fun pair _ => ?_).trans (map_id _)
  simp only [comp_apply,hdecode,id]

theorem formParse_respell_of_kept (h : Spelling keeps) (hplus : keeps 0x2B=true) (query : Bytes) :
    formParse (respell keeps query)=(decodedPairs query).map fun pair =>
      (fromUtf8Lossy (plusToSpace pair.1),fromUtf8Lossy (plusToSpace pair.2)) := by
  have htext : ∀ bytes,formText (encodeBytes keeps bytes)=fromUtf8Lossy (plusToSpace bytes) :=
    fun bytes => by rw [formText,decodeBinary_plusToSpace_encodeBytes h.percent hplus]
  rw [formParse,queryPairs_respell h,map_map]
  refine map_congr_left fun pair _ => ?_
  simp only [comp_apply,htext]

theorem formParse_respell_of_escaped (h : Spelling keeps) (hplus : keeps 0x2B=false) (query : Bytes) :
    formParse (respell keeps query)=(decodedPairs query).map fun pair =>
      (fromUtf8Lossy pair.1,fromUtf8Lossy pair.2) := by
  have habsent : ∀ bytes,0x2B∉encodeBytes keeps bytes :=
    not_mem_encodeBytes hplus (by decide) (by decide) (by decide)
  have htext : ∀ bytes,formText (encodeBytes keeps bytes)=fromUtf8Lossy bytes := fun bytes => by
    rw [formText,plusToSpace_eq_self (habsent bytes),decodeBinary_encodeBytes h.percent]
  rw [formParse,queryPairs_respell h,map_map]
  refine map_congr_left fun pair _ => ?_
  simp only [comp_apply,htext]

/-- Text with a plus sign anywhere among some parameters. -/
def MentionsPlus (parameters : List (List Char×List Char)) : Prop :=
  ∃ pair∈parameters,'+'∈pair.1 ∨ '+'∈pair.2

theorem respell_not_perm {escapes : UInt8→Bool} (hkeeps : Spelling keeps)
    (hescapes : Spelling escapes) (hkept : keeps 0x2B=true) (hescaped : escapes 0x2B=false)
    {query : Bytes} (h : ¬PlusFree query) :
    ¬(formParse (respell keeps query)).Perm (formParse (respell escapes query)) := by
  have hascii : (0x2B : UInt8)<0x80 := by decide
  have hlossy : ∀ bytes,'+'∈fromUtf8Lossy bytes ↔ 0x2B∈bytes := mem_fromUtf8Lossy_ascii hascii
  intro hperm
  have hescapedPlus : MentionsPlus (formParse (respell escapes query)) := by
    rw [PlusFree] at h
    push Not at h
    obtain ⟨pair,hpair,hplus⟩ := h
    rw [formParse_respell_of_escaped hescapes hescaped]
    refine ⟨_,mem_map_of_mem hpair,?_⟩
    simp only [hlossy]
    by_cases hname : 0x2B∈pair.1
    · exact Or.inl hname
    · exact Or.inr (hplus hname)
  obtain ⟨pair,hpair,hplus⟩ := hescapedPlus
  rw [← hperm.mem_iff,formParse_respell_of_kept hkeeps hkept] at hpair
  obtain ⟨decoded,_,rfl⟩ := mem_map.mp hpair
  simp only [hlossy] at hplus
  rcases hplus with hplus | hplus
  · exact plus_not_mem_plusToSpace _ hplus
  · exact plus_not_mem_plusToSpace _ hplus

end UrlEncoding
