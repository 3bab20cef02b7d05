import Mathlib
import NebularOs.BlobFormats
import NebularOs.BlobFilenames
import NebularOs.TrimmedText

/-!
# When a payload is worth compressing

The writer skips payloads that are small, or whose key, content type or first bytes
say that they are compressed already. The tests look at texts as the source does:
without regard to ASCII case, and with surrounding white space dropped.
-/

namespace NebularOs.Compressibility

open ByteFields BlobFilenames TrimmedText

/-- A text in lower case, as far as it is ASCII. -/
def toAsciiLowercase (text : Text) : Text :=
  text.map Char.toLower

/-- What the decision looks at. -/
structure CompressionContext where
  /-- Key of the object. -/
  objectKey : Option Text
  /-- Its content type. -/
  contentType : Option Text
  /-- Its size. -/
  logicalSize : ℕ
  /-- The least size that is compressed. -/
  minSize : ℕ
  /-- Extensions that the configuration leaves out. -/
  extraExcludedExtensions : List Text

/-- A context; empty payloads are always below its least size. -/
def CompressionContext.new (objectKey contentType : Option Text) (logicalSize minSize : ℕ)
    (extraExcludedExtensions : List Text) : CompressionContext :=
  ⟨objectKey,contentType,logicalSize,max minSize 1,extraExcludedExtensions⟩

/-- Extensions of files that are compressed already. -/
def excludedExtensions : List Text :=
  ["gz", "bz2", "rar", "zip", "7z", "xz", "zst", "lz4", "br", "tgz",
    "jpg", "jpeg", "png", "gif", "webp", "avif", "heic", "heif", "jxl",
    "mp4", "mkv", "mov", "avi", "wmv", "flv", "webm", "m4v", "mpeg", "mpg",
    "mp3", "aac", "ogg", "flac", "wma", "m4a", "opus",
    "pdf", "docx", "xlsx", "pptx",
    "deb", "rpm", "jar", "war", "apk",
    "woff", "woff2"].map String.toList

/-- Content types of what is compressed already. -/
def excludedContentTypes : List Text :=
  ["video/*",
    "audio/*",
    "image/*",
    "application/zip",
    "application/gzip",
    "application/x-gzip",
    "application/x-zip-compressed",
    "application/x-rar-compressed",
    "application/x-7z-compressed",
    "application/x-bzip",
    "application/x-bzip2",
    "application/x-xz",
    "application/zstd",
    "application/x-zstd",
    "application/x-tar",
    "application/tar",
    "application/pdf",
    "application/wasm",
    "font/*"].map String.toList

/-- The extension of a key: what follows the last point of its last segment, if
neither side is empty. -/
def objectExtension (key : Text) : Option Text :=
  let segment := (key.reverse.takeWhile (· ≠ '/')).reverse
  let ext := (segment.reverse.takeWhile (· ≠ '.')).reverse
  if ext.length=segment.length then none
  else
    let base := segment.take (segment.length-ext.length-1)
    if base.isEmpty ∨ ext.isEmpty then none else some ext

/-- A key with an extension of the tables. -/
def extensionIsExcluded (key : Text) (extra : List Text) : Bool :=
  match objectExtension key with
  | none => false
  | some ext =>
    let ext := toAsciiLowercase ext
    excludedExtensions.any (· == ext) || extra.any (· == ext)

/-- A content type that a pattern covers: a whole family, or one type. -/
def contentTypeMatchesPattern (contentType pattern : Text) : Bool :=
  let pattern := toAsciiLowercase (trim isWhitespace pattern)
  if ['/', '*'].isSuffixOf pattern then
    let family := pattern.take (pattern.length-2)
    family.isPrefixOf contentType &&
      (contentType.length==family.length || contentType[family.length]?==some '/')
  else contentType==pattern

/-- A content type that the table covers. -/
def contentTypeIsExcluded (contentType : Text) : Bool :=
  let contentType := toAsciiLowercase (trim isWhitespace contentType)
  if contentType.isEmpty then false
  else excludedContentTypes.any (contentTypeMatchesPattern contentType)

/-- Whether to try to compress a payload. -/
def shouldAttemptCompression (ctx : CompressionContext) : Bool :=
  if ctx.logicalSize<ctx.minSize then false
  else if ctx.objectKey.any (extensionIsExcluded · ctx.extraExcludedExtensions) then false
  else if ctx.contentType.any contentTypeIsExcluded then false
  else true

/-- First bytes of formats that are compressed already. -/
def prefixLooksIncompressible (head : Bytes) : Bool :=
  [0x1F, 0x8B].isPrefixOf head ||
  ([0x50, 0x4B, 0x03, 0x04].isPrefixOf head || [0x50, 0x4B, 0x05, 0x06].isPrefixOf head) ||
  [0x28, 0xB5, 0x2F, 0xFD].isPrefixOf head ||
  [0x89, 0x50, 0x4E, 0x47].isPrefixOf head ||
  [0xFF, 0xD8, 0xFF].isPrefixOf head ||
  [0x47, 0x49, 0x46, 0x38].isPrefixOf head ||
  [0x49, 0x44, 0x33].isPrefixOf head ||
  (12≤head.length && slice 4 4 head==[0x66, 0x74, 0x79, 0x70]) ||
  (12≤head.length && [0x52, 0x49, 0x46, 0x46].isPrefixOf head &&
    slice 8 4 head==[0x57, 0x45, 0x42, 0x50])

theorem shouldAttemptCompression_empty (objectKey contentType : Option Text) (minSize : ℕ)
    (extra : List Text) :
    shouldAttemptCompression (.new objectKey contentType 0 minSize extra)=false := by
  have hleast : 0 < max minSize 1 := lt_max_of_lt_right Nat.one_pos
  exact if_pos hleast

end NebularOs.Compressibility
