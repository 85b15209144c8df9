-- SUMMARY: The key under which output for a source and options is cached: the digest of their canonical JSON text.
import BanglaSource.Json.Printer
import BanglaSource.Sha256

/-!
# Content keys

The key of a source text and its options is the SHA-256 digest of one JSON text
that holds both, with sorted keys. Options that are equal as JSON values thus
have one key, in whatever order their fields were put together.
-/
namespace BanglaSource.ContentKey

/-- The text that is hashed. -/
def text (source : Text) (options : Json) : Text :=
  Json.print (.obj [("code", .str source), ("options", options.canonical)])

/-- Two lower-case hexadecimal digits for each byte. -/
def hex (bytes : List UInt8) : Text :=
  bytes.flatMap fun b => [Nat.digitChar (b.toNat / 16), Nat.digitChar (b.toNat % 16)]

/-- The SHA-256 digest of a text in hexadecimal digits. -/
def hash (s : Text) : Text :=
  hex (Sha256.digest (Text.utf8 s).toList)

/-- The key of a source text and its options. -/
def of (source : Text) (options : Json) : Text :=
  hash (text source options)

end BanglaSource.ContentKey
