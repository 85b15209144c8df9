-- SUMMARY: The text behind a content key determines source and options, so equal keys mean equal requests or a collision.
import BanglaSource.Proofs.CacheEntries
import BanglaSource.Proofs.JsonEquality
import BanglaSource.Proofs.JsonUnambiguity

/-!
# Content keys

The text that is hashed for a source and options is the text of no other source
and of no other options, where options count as equal if they are the same value,
objects taken as finite maps. Encoding the text as bytes and writing the digest in
hexadecimal digits loses nothing, so two different requests have one key only if
their texts are a collision of SHA-256.
-/
namespace BanglaSource

/-! ## Texts -/

namespace ContentKey

variable {p : Int → Prop}

theorem whole_text (source : Text) {options : Json} (h : options.Whole p) :
    (Json.obj [("code", .str source), ("options", options.canonical)]).Whole p := by
  refine .obj ?_
  simp only [List.forall_mem_cons]
  exact ⟨.str _, h.canonical, by simp⟩

/-- Options without floating-point numbers share a text with the same options only. -/
theorem text_eq_iff {options : Json} (h : options.Whole p) (source source' : Text)
    (options' : Json) :
    text source options = text source' options' ↔ source = source' ∧ options.Same options' := by
  rw [← Json.canonical_eq_iff]
  constructor
  · intro heq
    have hvalue := Json.print_inj (whole_text source h) heq
    simpa using hvalue
  · rintro ⟨rfl, heq⟩
    rw [text, text, heq]

/-! ## Digests -/

theorem digitChar_injective : ∀ m < 16, ∀ n < 16,
    Nat.digitChar m = Nat.digitChar n → m = n := by
  decide

theorem hex_injective {bytes bytes' : List UInt8} (h : hex bytes = hex bytes') :
    bytes = bytes' := by
  induction bytes generalizing bytes' with
  | nil =>
    cases bytes' with
    | nil => rfl
    | cons b' bytes' => simp [hex] at h
  | cons b bytes ih =>
    cases bytes' with
    | nil => simp [hex] at h
    | cons b' bytes' =>
      simp only [hex, List.flatMap_cons, List.cons_append, List.nil_append, List.cons.injEq] at h
      obtain ⟨hhigh, hlow, htail⟩ := h
      have hb := b.toNat_lt
      have hb' := b'.toNat_lt
      have hdiv := digitChar_injective _ (by omega) _ (by omega) hhigh
      have hmod := digitChar_injective _ (by omega) _ (by omega) hlow
      have heq : b = b' := UInt8.toNat_inj.1 (by omega)
      rw [heq, ih htail]

end ContentKey

theorem toList_loop_eq (bytes : ByteArray) (i : Nat) (r : List UInt8) :
    ByteArray.toList.loop bytes i r = r.reverse ++ bytes.data.toList.drop i := by
  fun_induction ByteArray.toList.loop bytes i r with
  | case1 i r hi ih =>
    have hbyte : bytes.get! i = bytes.data.toList[i] := getElem!_pos bytes.data i hi
    have hdrop : bytes.data.toList.drop i = bytes.get! i :: bytes.data.toList.drop (i + 1) := by
      rw [hbyte]
      exact List.drop_eq_getElem_cons _
    rw [ih, hdrop, List.reverse_cons, List.append_assoc, List.singleton_append]
  | case2 i r hi =>
    rw [List.drop_eq_nil_of_le (by simpa using hi), List.append_nil]

namespace Text

/-- The bytes of the UTF-8 encoding. -/
def bytes (s : Text) : List UInt8 :=
  (utf8 s).toList

theorem bytes_injective {s s' : Text} (h : s.bytes = s'.bytes) : s = s' := by
  simp only [bytes, ByteArray.toList, toList_loop_eq, List.reverse_nil, List.nil_append,
    List.drop_zero] at h
  have harray : utf8 s = utf8 s' := ByteArray.ext (Array.toList_inj.1 h)
  exact String.ofList_injective (String.toByteArray_inj.1 harray)

end Text

/-- Whether two messages are different but have one digest. -/
def Sha256.Collides (message message' : List UInt8) : Prop :=
  message ≠ message' ∧ digest message = digest message'

namespace ContentKey

variable {p : Int → Prop}

theorem hash_eq_iff (s s' : Text) :
    hash s = hash s' ↔ s = s' ∨ Sha256.Collides s.bytes s'.bytes := by
  constructor
  · intro h
    by_cases heq : s = s'
    · exact .inl heq
    · exact .inr ⟨fun hbytes => heq (Text.bytes_injective hbytes), hex_injective h⟩
  · rintro (rfl | ⟨-, hdigest⟩)
    · rfl
    · exact congrArg hex hdigest

/-- No two of the given sources and options have texts on which SHA-256 collides. -/
def Separated (uses : List (Text × Json)) : Prop :=
  ∀ u ∈ uses, ∀ u' ∈ uses,
    ¬ Sha256.Collides (text u.1 u.2).bytes (text u'.1 u'.2).bytes

theorem Separated.of_eq_iff {uses : List (Text × Json)} (h : Separated uses) {source : Text}
    {options : Json} (huse : (source, options) ∈ uses) (hwhole : options.Whole p) {source' : Text}
    {options' : Json} (huse' : (source', options') ∈ uses) :
    of source options = of source' options' ↔ source = source' ∧ options.Same options' := by
  have hcollides := h _ huse _ huse'
  rw [of, of, hash_eq_iff, or_iff_left hcollides, text_eq_iff hwhole]

/-- The hashed text tells sources and options apart, and the keys of two requests
    are equal only if the requests are or SHA-256 collides on their texts. -/
theorem key_identifies_request :
    (∀ (source source' : Text) (options options' : Json), options.Whole (fun _ => True) →
      (text source options = text source' options' ↔
        source = source' ∧ options.Same options')) ∧
    ∀ r r' : Request, r.key = r'.key ↔
      r = r' ∨ Sha256.Collides r.keyText.bytes r'.keyText.bytes := by
  constructor
  · intro source source' options options' h
    exact text_eq_iff h source source' options'
  · intro r r'
    have hkey : r.key = r'.key ↔ r.keyText = r'.keyText ∨
        Sha256.Collides r.keyText.bytes r'.keyText.bytes := hash_eq_iff _ _
    rw [hkey]
    exact or_congr_left ⟨Request.keyText_injective, congrArg Request.keyText⟩

/-- Two orders of the same fields have one text, and a source that looks like the
    end of the text does not stand for other options. -/
theorem key_identifies_request_reordered :
    text "\x22\x7d" (.obj [("b", .nat 1), ("a", .arr [.null])]) =
      text "\x22\x7d" (.obj [("a", .arr [.null]), ("b", .nat 1)]) ∧
    text "\x22\x7d" (.obj [("b", .nat 1), ("a", .arr [.null])]) ≠
      text "" (.obj [("b", .nat 1), ("a", .arr [.null])]) := by
  have hwhole : (Json.obj [("b", .nat 1), ("a", .arr [.null])]).Whole fun _ => True := by
    refine .obj ?_
    simp only [List.forall_mem_cons]
    exact ⟨.int trivial, .arr (by simpa using .null), by simp⟩
  constructor
  · exact (key_identifies_request.1 _ _ _ _ hwhole).2 ⟨rfl, by decide⟩
  · intro h
    have heq := ((key_identifies_request.1 _ _ _ _ hwhole).1 h).1
    exact absurd heq (by decide)

end ContentKey
end BanglaSource
