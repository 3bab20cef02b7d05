import Mathlib
import NebularOs.BlobPaths
import NebularOs.Utf8Scanning

/-!
# From filenames back to keys

One reader turns filenames of both schemes back into keys, and from the path below a bucket's
directory the key of a file is recovered, whether it lies flat in its shard or nested. The
portable scheme is for filesystems that ignore case and for Windows: reading its names does
not depend on the case of letters either, and they keep to what such filesystems allow.
-/

namespace NebularOs.FilenameDecoding

open PercentCoding Utf8Scanning BlobFilenames BlobPaths List

/-- The key that a filename of either scheme spells. -/
def decodeBlobFilename (encoded : Text) : Text :=
  fromUtf8Lossy (unescape (utf8 encoded))

/-- The key of a file, from its path below the bucket's directory. -/
def objectKeyFromBlobRelpath (rel : Text) : Option Text :=
  if rel.contains '/' then
    let tail := (rel.dropWhile (· ≠ '/')).drop 1
    if tail.isEmpty then none
    else some (if tail.contains '/' then tail else decodeBlobFilename tail)
  else none

section Decoding

variable {key name : Text}

theorem decodeBlobFilename_of_unescape (h : unescape (utf8 name)=utf8 key) :
    decodeBlobFilename name=key := by
  unfold decodeBlobFilename
  rw [h]
  exact fromUtf8Lossy_utf8 key

theorem decodeBlobFilename_flatName (h : FlatName key name) : decodeBlobFilename name=key :=
  decodeBlobFilename_of_unescape (unescape_of_spells h.spells)

/-- The name of a shard has no slash of either kind. -/
theorem hashPrefix_plain (hash : List UInt8→UInt64) (key : Text) :
    '/'∉hashPrefix hash key ∧ '\\'∉hashPrefix hash key := by
  have hall : ∀ n : Fin 256,'/'∉[lowerHexDigit (n.val/16),lowerHexDigit (n.val%16)] ∧
      '\\'∉[lowerHexDigit (n.val/16),lowerHexDigit (n.val%16)] := by decide +kernel
  have hlow : (hash (utf8 key) &&& 0xFF).toNat<256 := by
    rw [UInt64.toNat_and]
    exact lt_of_le_of_lt Nat.and_le_right (by decide)
  exact hall ⟨_,hlow⟩

theorem tail_of_shard {shard : Text} (h : '/'∉shard) (name : Text) :
    ((shard++ '/'::name).dropWhile (· ≠ '/')).drop 1=name := by
  have hall : ∀ ch∈shard,decide (ch ≠ '/')=true :=
    fun ch hch => decide_eq_true fun heq => h (heq ▸ hch)
  rw [dropWhile_append_of_pos hall,dropWhile_cons_of_neg (by decide)]
  rfl

theorem flatName_ne_nil (h : FlatName key name) (hkey : key≠[]) : name≠[] := by
  rintro rfl
  have hbytes : utf8 []=utf8 key := by
    have hread := unescape_of_spells h.spells
    exact hread
  exact hkey (utf8_injective hbytes).symm

theorem objectKeyFromBlobRelpath_candidate (hash : List UInt8→UInt64) (hkey : key≠[])
    (h : CandidateName key name) :
    objectKeyFromBlobRelpath (hashPrefix hash key++ '/'::name)=some key := by
  have hcontains : (hashPrefix hash key++ '/'::name).contains '/'=true := by
    rw [contains_iff_mem]
    exact mem_append_right _ mem_cons_self
  unfold objectKeyFromBlobRelpath
  rw [if_pos hcontains,tail_of_shard (hashPrefix_plain hash key).1]
  dsimp only
  rcases h with hflat | ⟨hslash,rfl⟩
  · have hplain : name.contains '/'=false := by
      rw [Bool.eq_false_iff,ne_eq,contains_iff_mem]
      exact slash_not_mem_of_flatName hflat
    have hsome : name.isEmpty=false := isEmpty_eq_false_iff.mpr (flatName_ne_nil hflat hkey)
    rw [hplain,hsome,decodeBlobFilename_flatName hflat]
    rfl
  · have hnested : name.contains '/'=true := contains_iff_mem.mpr hslash
    have hsome : name.isEmpty=false := isEmpty_eq_false_iff.mpr hkey
    rw [hnested,hsome]
    rfl

end Decoding

section Folding

/-- A name as filesystems that ignore case compare it. -/
def foldCase (name : Text) : Text :=
  name.map Char.toLower

theorem toLower_portableByte {b : UInt8} (h : isPortableByte b=true) :
    (Char.ofNat b.toNat).toLower=Char.ofNat b.toNat := by
  have hall : ∀ n : Fin 256,isPortableByte (UInt8.ofNat n.val)=true →
      (Char.ofNat n.val).toLower=Char.ofNat n.val := by decide +kernel
  have hb := hall ⟨b.toNat,b.toNat_lt⟩
  rw [UInt8.ofNat_toNat] at hb
  exact hb h

theorem foldCase_escapeByte (b : UInt8) :
    ∃ high low,utf8 (foldCase ((escapeByte b).map fun digit => Char.ofNat digit.toNat))=
      [percentSign,high,low] ∧ hexPair high low=some b := by
  have hall : ∀ n : Fin 256,
      utf8 (foldCase ((escapeByte (UInt8.ofNat n.val)).map fun digit => Char.ofNat digit.toNat))=
        [percentSign,UInt8.ofNat (lowerHexDigit (n.val/16)).toNat,
          UInt8.ofNat (lowerHexDigit (n.val%16)).toNat] ∧
      hexPair (UInt8.ofNat (lowerHexDigit (n.val/16)).toNat)
        (UInt8.ofNat (lowerHexDigit (n.val%16)).toNat)=some (UInt8.ofNat n.val) := by
    decide +kernel
  have hb := hall ⟨b.toNat,b.toNat_lt⟩
  rw [UInt8.ofNat_toNat] at hb
  exact ⟨_,_,hb⟩

theorem unescape_foldCase_byte (reserved : Bool) (length : ℕ) (b : UInt8) (i : ℕ)
    (rest : List UInt8) :
    unescape (utf8 (foldCase (encodePortableByte reserved length b i))++rest)=b::unescape rest := by
  unfold encodePortableByte
  dsimp only
  split_ifs with hkeep
  · have hportable := (Bool.and_eq_true_iff.mp hkeep).2
    obtain ⟨hpercent,hascii⟩ := isPortableByte_spec hportable
    have hself : utf8 (foldCase [Char.ofNat b.toNat])=[b] := by
      unfold foldCase utf8
      rw [map_singleton,toLower_portableByte hportable,flatMap_singleton,
        utf8EncodeChar_ofNat hascii]
    rw [hself,singleton_append,unescape_literal hpercent]
  · obtain ⟨high,low,hfolded,hpair⟩ := foldCase_escapeByte b
    rw [hfolded,cons_append,cons_append,cons_append,nil_append,unescape,if_pos rfl,
      hpair]

theorem unescape_foldCase_encodePortable (key : Text) :
    unescape (utf8 (foldCase (encodePortable key)))=utf8 key := by
  have hall : ∀ (bytes : List UInt8) (start : ℕ),
      unescape (utf8 (foldCase ((bytes.zipIdx start).flatMap fun entry =>
        encodePortableByte (isWindowsDeviceName key) (utf8 key).length entry.1 entry.2)))=bytes := by
    intro bytes
    induction bytes with
    | nil => exact fun _ => rfl
    | cons b bytes ih =>
      intro start
      unfold foldCase
      rw [zipIdx_cons,flatMap_cons,map_append,utf8_append]
      exact (unescape_foldCase_byte _ _ b start _).trans (congrArg (b::·) (ih (start+1)))
  exact hall (utf8 key) 0

theorem encodePortable_foldCase_injective {key₁ key₂ : Text}
    (h : foldCase (encodePortable key₁)=foldCase (encodePortable key₂)) : key₁=key₂ := by
  refine utf8_injective ?_
  rw [← unescape_foldCase_encodePortable key₁,← unescape_foldCase_encodePortable key₂,h]

end Folding

section Windows

/-- Characters that Windows does not allow in filenames. -/
def forbiddenChars : List Char :=
  ['<', '>', ':', '"', '/', '\\', '|', '?', '*']

/-- Names of devices, which Windows does not allow as filenames with any extension. -/
def deviceNames : List Text :=
  ["CON".toList, "PRN".toList, "AUX".toList, "NUL".toList]++
    "0123456789".toList.flatMap fun digit => [['C', 'O', 'M', digit], ['L', 'P', 'T', digit]]

/-- Filenames that Windows allows and that are plain text. -/
structure AllowedName (name : Text) : Prop where
  /-- They are printable ASCII. -/
  printable : ∀ ch∈name,0x20 ≤ ch.toNat ∧ ch.toNat≤0x7E
  /-- No character is forbidden. -/
  allowed : ∀ ch∈name,ch∉forbiddenChars
  /-- They do not end in a dot. -/
  last_ne_dot : name.getLast?≠some '.'
  /-- They do not end in a space. -/
  last_ne_space : name.getLast?≠some ' '
  /-- What precedes the first dot is not the name of a device, in any case. -/
  no_device : (name.takeWhile (· ≠ '.')).map Char.toUpper∉deviceNames

theorem upperHexDigit_allowed {n : ℕ} (h : n<16) : 0x20≤(Char.ofNat (upperHexDigit n).toNat).toNat ∧
      (Char.ofNat (upperHexDigit n).toNat).toNat≤0x7E ∧
      Char.ofNat (upperHexDigit n).toNat∉ '.':: ' '::forbiddenChars := by
  have hall : ∀ n : Fin 16,0x20≤(Char.ofNat (upperHexDigit n.val).toNat).toNat ∧
      (Char.ofNat (upperHexDigit n.val).toNat).toNat≤0x7E ∧
      Char.ofNat (upperHexDigit n.val).toNat∉ '.':: ' '::forbiddenChars := by decide +kernel
  exact hall ⟨n,h⟩

theorem encodePortableByte_cases (reserved : Bool) (length : ℕ) (b : UInt8) (i : ℕ) :
    (encodePortableByte reserved length b i=[Char.ofNat b.toNat] ∧ isPortableByte b=true ∧
        (i+1=length→b≠0x2E ∧ b≠0x20) ∧ (i=0 → reserved=false)) ∨
      encodePortableByte reserved length b i= ['%', Char.ofNat (upperHexDigit (b.toNat/16)).toNat,
          Char.ofNat (upperHexDigit (b.toNat%16)).toNat] := by
  unfold encodePortableByte
  dsimp only
  split_ifs with hkeep
  · obtain ⟨hspared,hportable⟩ := Bool.and_eq_true_iff.mp hkeep
    rw [Bool.not_eq_true',Bool.or_eq_false_iff] at hspared
    refine Or.inl ⟨rfl,hportable,fun hlast => ?_,fun hfirst => ?_⟩
    · have htrailing := hspared.1
      rw [hlast,beq_self_eq_true,Bool.true_and,Bool.or_eq_false_iff] at htrailing
      exact ⟨beq_eq_false_iff_ne.mp htrailing.1,beq_eq_false_iff_ne.mp htrailing.2⟩
    · have hreserved := hspared.2
      rwa [hfirst,beq_self_eq_true,Bool.true_and] at hreserved
  · exact Or.inr rfl

theorem portableByte_allowed {b : UInt8} (h : isPortableByte b=true) :
    0x20≤(Char.ofNat b.toNat).toNat ∧ (Char.ofNat b.toNat).toNat≤0x7E ∧
      Char.ofNat b.toNat∉ '%'::forbiddenChars := by
  have hall : ∀ n : Fin 256,isPortableByte (UInt8.ofNat n.val)=true →
      0x20≤(Char.ofNat n.val).toNat ∧ (Char.ofNat n.val).toNat≤0x7E ∧
        Char.ofNat n.val∉ '%'::forbiddenChars := by decide +kernel
  have hb := hall ⟨b.toNat,b.toNat_lt⟩
  rw [UInt8.ofNat_toNat] at hb
  exact hb h

theorem encodePortableByte_allowed {reserved : Bool} {length : ℕ} {b : UInt8} {i : ℕ} {ch : Char}
    (h : ch∈encodePortableByte reserved length b i) :
    0x20 ≤ ch.toNat ∧ ch.toNat≤0x7E ∧ ch∉forbiddenChars := by
  have hdigit : ∀ {n : ℕ},n<16→0x20≤(Char.ofNat (upperHexDigit n).toNat).toNat ∧
      (Char.ofNat (upperHexDigit n).toNat).toNat≤0x7E ∧
      Char.ofNat (upperHexDigit n).toNat∉forbiddenChars := by
    intro n hn
    obtain ⟨hleast,hmost,hnot⟩ := upperHexDigit_allowed hn
    exact ⟨hleast,hmost,fun hmem => hnot (mem_cons_of_mem _ (mem_cons_of_mem _ hmem))⟩
  have hb := b.toNat_lt
  rcases encodePortableByte_cases reserved length b i with ⟨hkept,hportable,_⟩ | hescaped
  · rw [hkept,mem_singleton] at h
    obtain ⟨hleast,hmost,hnot⟩ := portableByte_allowed hportable
    rw [h]
    exact ⟨hleast,hmost,fun hmem => hnot (mem_cons_of_mem _ hmem)⟩
  · rw [hescaped] at h
    rcases mem_cons.mp h with rfl | h
    · decide
    · rcases mem_cons.mp h with rfl | h
      · exact hdigit (by omega)
      · rw [mem_singleton.mp h]
        exact hdigit (Nat.mod_lt _ (by decide))

theorem encodePortableByte_last (reserved : Bool) {length : ℕ} (b : UInt8) {i : ℕ}
    (hlast : i+1=length) :
    ∃ ch,(encodePortableByte reserved length b i).getLast?=some ch ∧ ch ≠ '.' ∧ ch ≠ ' ' := by
  rcases encodePortableByte_cases reserved length b i with ⟨hkept,hportable,hother,_⟩ | hescaped
  · obtain ⟨hdot,hspace⟩ := hother hlast
    have hchar : ∀ {a : UInt8},a.toNat<0x80→b≠a→Char.ofNat b.toNat≠Char.ofNat a.toNat := by
      intro a ha hne heq
      have hascii := (isPortableByte_spec hportable).2
      have hnat := congrArg Char.toNat heq
      rw [toNat_ofNat (by omega),toNat_ofNat (by omega)] at hnat
      exact hne (UInt8.toNat_inj.mp hnat)
    rw [hkept]
    exact ⟨_,rfl,hchar (by decide) hdot,hchar (by decide) hspace⟩
  · obtain ⟨_,_,hnot⟩ := upperHexDigit_allowed (Nat.mod_lt b.toNat (show 16 > 0 by decide))
    rw [hescaped]
    refine ⟨Char.ofNat (upperHexDigit (b.toNat%16)).toNat,rfl,fun heq => hnot ?_,fun heq => hnot ?_⟩
    · rw [heq]
      exact mem_cons_self
    · rw [heq]
      exact mem_cons_of_mem _ mem_cons_self

theorem encodePortable_last (key : Text) :
    (encodePortable key).getLast?≠some '.' ∧ (encodePortable key).getLast?≠some ' ' := by
  unfold encodePortable
  dsimp only
  rcases eq_nil_or_concat' (utf8 key) with hnil | ⟨bytes,b,hconcat⟩
  · rw [hnil]
    exact ⟨nofun,nofun⟩
  rw [hconcat,zipIdx_append,flatMap_append]
  obtain ⟨ch,hlast,hdot,hspace⟩ := @encodePortableByte_last (isWindowsDeviceName key)
    (bytes++[b]).length b (0+bytes.length) (by rw [length_append,length_singleton,Nat.zero_add])
  have hgroup : ([b].zipIdx (0+bytes.length)).flatMap (fun entry =>
      encodePortableByte (isWindowsDeviceName key) (bytes++[b]).length entry.1 entry.2)=
        encodePortableByte (isWindowsDeviceName key) (bytes++[b]).length b (0+bytes.length) :=
    append_nil _
  rw [hgroup,List.getLast?_append,hlast,Option.some_or]
  exact ⟨fun heq => hdot (Option.some.inj heq),fun heq => hspace (Option.some.inj heq)⟩

theorem utf8EncodeChar_ascii {ch : Char} {b : UInt8} {later : List UInt8}
    (h : String.utf8EncodeChar ch=b::later) (hascii : b.toNat<0x80) :
    later=[] ∧ Char.ofNat b.toNat=ch := by
  rw [utf8EncodeChar_eq] at h
  have hvalid : ch.toNat<0xD800 ∨ 0xDFFF<ch.toNat ∧ ch.toNat<0x110000 := ch.valid
  split_ifs at h with hone htwo hthree
  · cases h
    rw [toNat_byte (by omega)]
    exact ⟨rfl,Char.ofNat_toNat ch⟩
  · cases h
    rw [toNat_byte (by omega)] at hascii
    omega
  · cases h
    rw [toNat_byte (by omega)] at hascii
    omega
  · cases h
    rw [toNat_byte (by omega)] at hascii
    omega

theorem stem_of_literal (key : Text) (reserved : Bool) (length start : ℕ)
    (h : '%'∉((((utf8 key).zipIdx start).flatMap fun entry =>
      encodePortableByte reserved length entry.1 entry.2).takeWhile (· ≠ '.'))) :
    (((utf8 key).zipIdx start).flatMap fun entry =>
      encodePortableByte reserved length entry.1 entry.2).takeWhile (· ≠ '.')=
        key.takeWhile (· ≠ '.') := by
  induction key generalizing start with
  | nil => rfl
  | cons ch key ih =>
    have hbytes : utf8 (ch::key)=String.utf8EncodeChar ch++utf8 key := rfl
    obtain ⟨b,later,hfirst⟩ := exists_cons_of_ne_nil (String.utf8EncodeChar_ne_nil (c := ch))
    rw [hbytes,hfirst,cons_append,zipIdx_cons,flatMap_cons] at h ⊢
    dsimp only at h ⊢
    rcases encodePortableByte_cases reserved length b start with ⟨hkept,hportable,_⟩ | hescaped
    · obtain ⟨rfl,hchar⟩ := utf8EncodeChar_ascii hfirst (isPortableByte_spec hportable).2
      rw [hkept,hchar,nil_append,singleton_append] at h ⊢
      by_cases hdot : ch = '.'
      · rw [takeWhile_cons_of_neg (by simpa using hdot),
          takeWhile_cons_of_neg (by simpa using hdot)]
      · have hcons : ∀ rest : Text,(ch::rest).takeWhile (· ≠ '.')=ch::rest.takeWhile (· ≠ '.') :=
          fun rest => takeWhile_cons_of_pos (by simpa using hdot)
        rw [hcons] at h ⊢
        rw [hcons,ih (start+1) fun hmem => h (mem_cons_of_mem _ hmem)]
    · rw [hescaped,cons_append,takeWhile_cons_of_pos (by decide)] at h
      exact absurd mem_cons_self h

theorem deviceNames_spec {stem : Text} (h : stem.map Char.toUpper∈deviceNames) :
    '%'∉stem ∧ stem≠[] := by
  have hall : ∀ device∈deviceNames,'%'∉device ∧ device≠[] := by decide
  obtain ⟨hpercent,hne⟩ := hall _ h
  refine ⟨fun hmem => hpercent ?_,fun hnil => hne (by rw [hnil]; rfl)⟩
  exact mem_map.mpr ⟨ '%',hmem,by decide⟩

theorem isWindowsDeviceName_of_stem {key : Text}
    (h : (key.takeWhile (· ≠ '.')).map Char.toUpper∈deviceNames) : isWindowsDeviceName key=true := by
  have hall : ∀ stem∈deviceNames,((stem == "CON".toList || stem == "PRN".toList ||
        stem == "AUX".toList || stem == "NUL".toList) ||
      (("COM".toList.isPrefixOf stem || "LPT".toList.isPrefixOf stem) &&
        (utf8 stem).length==4 && ((utf8 stem)[3]?.any fun b => 0x30≤b ∧ b≤0x39)))=true := by
    decide
  exact hall _ h

theorem encodePortable_no_device (key : Text) :
    ((encodePortable key).takeWhile (· ≠ '.')).map Char.toUpper∉deviceNames := by
  intro hdevice
  obtain ⟨hpercent,hne⟩ := deviceNames_spec hdevice
  have hstem := stem_of_literal key (isWindowsDeviceName key) (utf8 key).length 0 hpercent
  have hreserved : isWindowsDeviceName key=true := by
    refine isWindowsDeviceName_of_stem ?_
    rwa [← hstem]
  -- the first byte of a reserved key is escaped
  cases hbytes : utf8 key with
  | nil =>
    unfold encodePortable at hne
    rw [hbytes] at hne
    exact hne rfl
  | cons b bytes =>
    have hname : ∃ rest,encodePortable key= '%'::rest := by
      unfold encodePortable
      dsimp only
      rw [hbytes,zipIdx_cons,flatMap_cons]
      rcases encodePortableByte_cases (isWindowsDeviceName key) (b::bytes).length b 0 with
        ⟨_,_,_,hspared⟩ | hescaped
      · rw [hspared rfl] at hreserved
        cases hreserved
      · rw [hescaped]
        exact ⟨_,rfl⟩
    obtain ⟨rest,hrest⟩ := hname
    rw [hrest,takeWhile_cons_of_pos (by decide)] at hpercent
    exact hpercent mem_cons_self

theorem encodePortable_allowed (key : Text) : AllowedName (encodePortable key) := by
  have hchars : ∀ ch∈encodePortable key,0x20 ≤ ch.toNat ∧ ch.toNat≤0x7E ∧ ch∉forbiddenChars := by
    intro ch hch
    obtain ⟨entry,_,hmem⟩ := mem_flatMap.mp hch
    exact encodePortableByte_allowed hmem
  obtain ⟨hdot,hspace⟩ := encodePortable_last key
  exact ⟨fun ch hch => ⟨(hchars ch hch).1,(hchars ch hch).2.1⟩,fun ch hch => (hchars ch hch).2.2,hdot,
    hspace,encodePortable_no_device key⟩

end Windows

section Names

/-- Every key is read back from its names by both schemes, no other key has one of them, and
a key that is not empty is recovered from the path of each of its candidates. Portable names
differ even where case is ignored, and are allowed everywhere. -/
theorem filenames_determine_keys (hash : List UInt8→UInt64) (key : Text) :
    (decodeBlobFilename (encodePlain key)=key ∧ decodeBlobFilename (encodePortable key)=key) ∧
      (∀ other name,FlatName key name→FlatName other name→key=other) ∧
      (key≠[]→∀ name,CandidateName key name →
        objectKeyFromBlobRelpath (hashPrefix hash key++ '/'::name)=some key) ∧
      (∀ other,key≠other→foldCase (encodePortable key)≠foldCase (encodePortable other)) ∧
      AllowedName (encodePortable key) :=
  ⟨⟨decodeBlobFilename_flatName (Or.inl rfl),decodeBlobFilename_flatName (Or.inr rfl)⟩,
    fun _ _ h₁ h₂ => h₁.unique h₂,
    fun hkey _ h => objectKeyFromBlobRelpath_candidate hash hkey h,
    fun _ hne h => hne (encodePortable_foldCase_injective h),
    encodePortable_allowed key⟩

/-- The path of the empty key's file ends behind its shard, and no key is recovered from it. -/
theorem empty_key_not_recovered : CandidateName [] (encodePlain []) ∧
      objectKeyFromBlobRelpath (hashPrefix (fun _ => 0) []++ '/'::encodePlain [])=none :=
  ⟨Or.inl (Or.inl rfl),by decide⟩

end Names

end NebularOs.FilenameDecoding
