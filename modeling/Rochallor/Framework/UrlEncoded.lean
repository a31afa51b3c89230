import Mathlib.Data.List.Basic
import Mathlib.Algebra.BigOperators.Group.List.Basic
import Mathlib.Algebra.Ring.Nat

/-! # Form-encoded lists

    `application/x-www-form-urlencoded`: a list of name-value pairs as text.
    The text is taken as UTF-8 bytes, split at `&` and at the first `=`, and
    the parts are percent-decoded; bytes that are no UTF-8 are replaced.  The
    serializer writes ASCII only, and what it writes is read back as it was.
-/

namespace UrlEncoded

/-! ## UTF-8 -/

/-- The bytes of a character. -/
def encodeChar (c : Char) : List Nat :=
  let n := c.toNat
  if n < 0x80 then [n]
  else if n < 0x800 then [0xC0 + n / 64, 0x80 + n % 64]
  else if n < 0x10000 then [0xE0 + n / 4096, 0x80 + n / 64 % 64, 0x80 + n % 64]
  else [0xF0 + n / 262144, 0x80 + n / 4096 % 64, 0x80 + n / 64 % 64, 0x80 + n % 64]

def utf8 (cs : List Char) : List Nat :=
  cs.flatMap encodeChar

/-- The replacement character. -/
def replacement : Char := '\uFFFD'

/-- The state of the decoder: what it has read of a character, how many bytes
    are needed, and between which bounds the next one is. -/
structure Decoder where
  codePoint : Nat
  needed : Nat
  lower : Nat
  upper : Nat

def Decoder.start : Decoder :=
  { codePoint := 0, needed := 0, lower := 0x80, upper := 0xBF }

/-- The first byte of a character. -/
def lead (b : Nat) : Decoder × List Char :=
  if b < 0x80 then (.start, [Char.ofNat b])
  else if 0xC2 ≤ b ∧ b ≤ 0xDF then
    ({ codePoint := b - 0xC0, needed := 1, lower := 0x80, upper := 0xBF }, [])
  else if 0xE0 ≤ b ∧ b ≤ 0xEF then
    ({ codePoint := b - 0xE0, needed := 2, lower := if b = 0xE0 then 0xA0 else 0x80,
       upper := if b = 0xED then 0x9F else 0xBF }, [])
  else if 0xF0 ≤ b ∧ b ≤ 0xF4 then
    ({ codePoint := b - 0xF0, needed := 3, lower := if b = 0xF0 then 0x90 else 0x80,
       upper := if b = 0xF4 then 0x8F else 0xBF }, [])
  else (.start, [replacement])

/-- One byte.  One that cannot continue the character is read again as the
    first of the next. -/
def step (d : Decoder) (b : Nat) : Decoder × List Char :=
  if d.needed = 0 then lead b
  else if d.lower ≤ b ∧ b ≤ d.upper then
    let codePoint := d.codePoint * 64 + (b - 0x80)
    if d.needed = 1 then (.start, [Char.ofNat codePoint])
    else
      ({ codePoint := codePoint, needed := d.needed - 1, lower := 0x80, upper := 0xBF }, [])
  else ((lead b).1, replacement :: (lead b).2)

/-- UTF-8 decode without BOM. -/
def decode (d : Decoder) : List Nat → List Char
  | [] => if d.needed = 0 then [] else [replacement]
  | b :: bytes => (step d b).2 ++ decode (step d b).1 bytes

theorem toNat_valid (c : Char) : c.toNat < 0xD800 ∨ 0xDFFF < c.toNat ∧ c.toNat < 0x110000 :=
  c.valid

/-- A continuation byte that ends a character. -/
theorem step_last {d : Decoder} {b : Nat} (hneeded : d.needed = 1) (hlower : d.lower ≤ b)
    (hupper : b ≤ d.upper) : step d b = (.start, [Char.ofNat (d.codePoint * 64 + (b - 0x80))]) := by
  rw [step, if_neg (by omega), if_pos ⟨hlower, hupper⟩]
  exact if_pos hneeded

/-- A continuation byte after which more are needed. -/
theorem step_more {d : Decoder} {b n : Nat} (hneeded : d.needed = n + 2) (hlower : d.lower ≤ b)
    (hupper : b ≤ d.upper) :
    step d b = (⟨d.codePoint * 64 + (b - 0x80), n + 1, 0x80, 0xBF⟩, []) := by
  rw [step, if_neg (by omega), if_pos ⟨hlower, hupper⟩]
  show (if d.needed = 1 then _ else _) = _
  rw [if_neg (by omega), hneeded]
  rfl

theorem step_start (b : Nat) : step .start b = lead b := rfl

/-- Decoding reads the bytes of a character as that character. -/
theorem decode_encodeChar (c : Char) (bytes : List Nat) :
    decode .start (encodeChar c ++ bytes) = c :: decode .start bytes := by
  have hvalid := toNat_valid c
  have hchar : ∀ n, n = c.toNat → Char.ofNat n = c := by
    rintro n rfl
    exact Char.ofNat_toNat c
  unfold encodeChar
  generalize c.toNat = n at hvalid hchar ⊢
  dsimp only
  by_cases h1 : n < 0x80
  · rw [if_pos h1, List.singleton_append, decode, step_start, lead, if_pos h1]
    rw [hchar n rfl]
    rfl
  rw [if_neg h1]
  by_cases h2 : n < 0x800
  · rw [if_pos h2]
    show decode .start ((0xC0 + n / 64) :: (0x80 + n % 64) :: bytes) = _
    have hlead : lead (0xC0 + n / 64) = (⟨n / 64, 1, 0x80, 0xBF⟩, []) := by
      rw [lead, if_neg (by omega), if_pos (by omega), Nat.add_sub_cancel_left]
    rw [decode, step_start, hlead, decode,
      step_last rfl (by dsimp only; omega) (by dsimp only; omega)]
    dsimp only
    rw [hchar _ (by omega)]
    rfl
  rw [if_neg h2]
  by_cases h3 : n < 0x10000
  · rw [if_pos h3]
    show decode .start ((0xE0 + n / 4096) :: (0x80 + n / 64 % 64) :: (0x80 + n % 64) :: bytes) = _
    have hlead : lead (0xE0 + n / 4096) =
        (⟨n / 4096, 2, if 0xE0 + n / 4096 = 0xE0 then 0xA0 else 0x80,
          if 0xE0 + n / 4096 = 0xED then 0x9F else 0xBF⟩, []) := by
      rw [lead, if_neg (by omega), if_neg (by omega), if_pos (by omega), Nat.add_sub_cancel_left]
    rw [decode, step_start, hlead, decode,
      step_more rfl (by dsimp only; split <;> omega) (by dsimp only; split <;> omega), decode,
      step_last rfl (by dsimp only; omega) (by dsimp only; omega)]
    dsimp only
    rw [hchar _ (by omega)]
    rfl
  · rw [if_neg h3]
    show decode .start ((0xF0 + n / 262144) :: (0x80 + n / 4096 % 64) :: (0x80 + n / 64 % 64) ::
      (0x80 + n % 64) :: bytes) = _
    have hlead : lead (0xF0 + n / 262144) =
        (⟨n / 262144, 3, if 0xF0 + n / 262144 = 0xF0 then 0x90 else 0x80,
          if 0xF0 + n / 262144 = 0xF4 then 0x8F else 0xBF⟩, []) := by
      rw [lead, if_neg (by omega), if_neg (by omega), if_neg (by omega), if_pos (by omega),
        Nat.add_sub_cancel_left]
    rw [decode, step_start, hlead, decode,
      step_more rfl (by dsimp only; split <;> omega) (by dsimp only; split <;> omega), decode,
      step_more rfl (by dsimp only; omega) (by dsimp only; omega), decode,
      step_last rfl (by dsimp only; omega) (by dsimp only; omega)]
    dsimp only
    rw [hchar _ (by omega)]
    rfl

theorem decode_utf8 (cs : List Char) : decode .start (utf8 cs) = cs := by
  induction cs with
  | nil => rfl
  | cons c rest ih =>
    rw [utf8, List.flatMap_cons, decode_encodeChar]
    exact congrArg (c :: ·) ih

/-- The bytes of a character are bytes. -/
theorem encodeChar_lt (c : Char) : ∀ b ∈ encodeChar c, b < 256 := by
  have hvalid := toNat_valid c
  unfold encodeChar
  generalize c.toNat = n at hvalid ⊢
  dsimp only
  intro b hb
  split at hb
  · simp only [List.mem_singleton] at hb
    omega
  split at hb
  · simp only [List.mem_cons, List.not_mem_nil, or_false] at hb
    omega
  split at hb
  · simp only [List.mem_cons, List.not_mem_nil, or_false] at hb
    omega
  · simp only [List.mem_cons, List.not_mem_nil, or_false] at hb
    omega

theorem length_encodeChar_le (c : Char) : (encodeChar c).length ≤ 4 := by
  unfold encodeChar
  dsimp only
  split_ifs <;> simp

/-! ## Percent-encoding -/

/-- A hexadecimal digit in upper case. -/
def hex (n : Nat) : Nat :=
  if n < 10 then 48 + n else 55 + n

/-- The value of a hexadecimal digit in either case. -/
def unhex (b : Nat) : Option Nat :=
  if 48 ≤ b ∧ b ≤ 57 then some (b - 48)
  else if 65 ≤ b ∧ b ≤ 70 then some (b - 55)
  else if 97 ≤ b ∧ b ≤ 102 then some (b - 87)
  else none

/-- ASCII letters and digits, and `*`, `-`, `.` and `_`, are written as they
    are. -/
def keeps (b : Nat) : Bool :=
  [42, 45, 46, 95].contains b || (decide (48 ≤ b) && decide (b ≤ 57)) ||
    (decide (65 ≤ b) && decide (b ≤ 90)) || (decide (97 ≤ b) && decide (b ≤ 122))

/-- A space is written as `+`. -/
def encodeByte (b : Nat) : List Nat :=
  if b = 32 then [43] else if keeps b then [b] else [37, hex (b / 16), hex (b % 16)]

def encodeText (s : String) : List Nat :=
  (utf8 s.toList).flatMap encodeByte

def plusToSpace (b : Nat) : Nat :=
  if b = 43 then 32 else b

/-- The byte that two hexadecimal digits stand for. -/
def escaped (x y : Nat) : Option Nat :=
  match unhex x, unhex y with
  | some m, some n => some (16 * m + n)
  | _, _ => none

/-- A `%` without two digits behind it stays as it is. -/
def percentDecode : List Nat → List Nat
  | [] => []
  | [b] => [b]
  | [b, x] => [b, x]
  | b :: x :: y :: bytes =>
    match (if b = 37 then escaped x y else none) with
    | some n => n :: percentDecode bytes
    | none => b :: percentDecode (x :: y :: bytes)

def decodeText (bytes : List Nat) : String :=
  String.ofList (decode .start (percentDecode (bytes.map plusToSpace)))

theorem unhex_hex {n : Nat} (hn : n < 16) : unhex (hex n) = some n := by
  unfold hex unhex
  by_cases h : n < 10
  · rw [if_pos h, if_pos (by omega), Nat.add_sub_cancel_left]
  · rw [if_neg h, if_neg (by omega), if_pos (by omega), Nat.add_sub_cancel_left]

theorem keeps_iff {b : Nat} : keeps b = true ↔
    b = 42 ∨ b = 45 ∨ b = 46 ∨ b = 95 ∨ 48 ≤ b ∧ b ≤ 57 ∨ 65 ≤ b ∧ b ≤ 90 ∨ 97 ≤ b ∧ b ≤ 122 := by
  simp only [keeps, Bool.or_eq_true, Bool.and_eq_true, decide_eq_true_eq, List.contains_eq_mem,
    List.mem_cons, List.not_mem_nil, or_false]
  tauto

/-- An encoded byte is of letters, digits and marks, among them none of `&`,
    `=` and `?`. -/
theorem encodeByte_ascii {b : Nat} (hb : b < 256) :
    ∀ x ∈ encodeByte b, x < 128 ∧ x ≠ 38 ∧ x ≠ 61 ∧ x ≠ 63 := by
  have hhex : ∀ n, n < 16 → hex n < 128 ∧ hex n ≠ 38 ∧ hex n ≠ 61 ∧ hex n ≠ 63 := by
    intro n hn
    unfold hex
    split <;> omega
  intro x hx
  unfold encodeByte at hx
  split at hx
  · simp only [List.mem_singleton] at hx
    omega
  split at hx
  · rename_i hkeeps
    rw [keeps_iff] at hkeeps
    simp only [List.mem_singleton] at hx
    omega
  · simp only [List.mem_cons, List.not_mem_nil, or_false] at hx
    rcases hx with rfl | rfl | rfl
    · omega
    · exact hhex _ (by omega)
    · exact hhex _ (by omega)

theorem percentDecode_ne {b : Nat} (hb : b ≠ 37) (rest : List Nat) :
    percentDecode (b :: rest) = b :: percentDecode rest := by
  match rest with
  | [] => rfl
  | [x] => rfl
  | x :: y :: bytes => rw [percentDecode, if_neg hb]

/-- An encoded byte is decoded to that byte. -/
theorem percentDecode_encodeByte {b : Nat} (hb : b < 256) (rest : List Nat) :
    percentDecode ((encodeByte b).map plusToSpace ++ rest) = b :: percentDecode rest := by
  have hhex : ∀ n, n < 16 → plusToSpace (hex n) = hex n := by
    intro n hn
    refine if_neg ?_
    unfold hex
    split <;> omega
  unfold encodeByte
  by_cases hspace : b = 32
  · rw [if_pos hspace, hspace]
    exact percentDecode_ne (by decide) rest
  rw [if_neg hspace]
  by_cases hkeeps : keeps b = true
  · rw [if_pos hkeeps]
    rw [keeps_iff] at hkeeps
    have hplus : plusToSpace b = b := if_neg (by omega)
    rw [List.map_singleton, hplus, List.singleton_append, percentDecode_ne (by omega)]
  · rw [if_neg hkeeps, List.map_cons, List.map_cons, List.map_singleton, hhex _ (by omega),
      hhex _ (by omega)]
    show percentDecode (37 :: hex (b / 16) :: hex (b % 16) :: rest) = _
    rw [percentDecode, if_pos rfl, escaped, unhex_hex (by omega), unhex_hex (by omega)]
    dsimp only
    rw [Nat.div_add_mod]

theorem percentDecode_encode {bytes : List Nat} (h : ∀ b ∈ bytes, b < 256) :
    percentDecode ((bytes.flatMap encodeByte).map plusToSpace) = bytes := by
  induction bytes with
  | nil => rfl
  | cons b rest ih =>
    obtain ⟨hb, hrest⟩ := List.forall_mem_cons.mp h
    rw [List.flatMap_cons, List.map_append, percentDecode_encodeByte hb, ih hrest]

theorem utf8_lt (cs : List Char) : ∀ b ∈ utf8 cs, b < 256 := by
  intro b hb
  obtain ⟨c, -, hc⟩ := List.mem_flatMap.mp hb
  exact encodeChar_lt c b hc

/-- An encoded text is decoded to that text. -/
theorem decodeText_encodeText (s : String) : decodeText (encodeText s) = s := by
  rw [decodeText, encodeText, percentDecode_encode (utf8_lt s.toList), decode_utf8,
    String.ofList_toList]

theorem encodeText_ascii (s : String) :
    ∀ x ∈ encodeText s, x < 128 ∧ x ≠ 38 ∧ x ≠ 61 ∧ x ≠ 63 := by
  intro x hx
  obtain ⟨b, hb, hx⟩ := List.mem_flatMap.mp hx
  exact encodeByte_ascii (utf8_lt _ b hb) x hx

/-! ## Lists of pairs -/

/-- The text of a pair, `name=value`. -/
def encodePair (p : String × String) : List Nat :=
  encodeText p.1 ++ 61 :: encodeText p.2

/-- The serializer. -/
def serialize (pairs : List (String × String)) : String :=
  String.ofList (([38].intercalate (pairs.map encodePair)).map Char.ofNat)

/-- A pair is split at the first `=`; without one the value is empty. -/
def decodePair (bytes : List Nat) : String × String :=
  (decodeText (bytes.takeWhile fun b => !(b == 61)),
    decodeText ((bytes.dropWhile fun b => !(b == 61)).drop 1))

/-- The parser.  Empty parts are skipped. -/
def parse (s : String) : List (String × String) :=
  (((utf8 s.toList).splitOn 38).filter fun part => !part.isEmpty).map decodePair

theorem decodePair_encodePair (p : String × String) : decodePair (encodePair p) = p := by
  have hname : ∀ b ∈ encodeText p.1, (fun b : Nat => !(b == 61)) b = true := by
    intro b hb
    simpa using (encodeText_ascii p.1 b hb).2.2.1
  unfold decodePair encodePair
  rw [List.takeWhile_append_of_pos hname, List.dropWhile_append_of_pos hname]
  show (decodeText (encodeText p.1 ++ []), decodeText (encodeText p.2)) = p
  rw [List.append_nil, decodeText_encodeText, decodeText_encodeText]

theorem encodePair_ascii (p : String × String) :
    ∀ x ∈ encodePair p, x < 128 ∧ x ≠ 38 ∧ x ≠ 63 := by
  intro x hx
  rcases List.mem_append.mp hx with hx | hx
  · obtain ⟨hlt, hamp, -, hmark⟩ := encodeText_ascii _ x hx
    exact ⟨hlt, hamp, hmark⟩
  · rcases List.mem_cons.mp hx with rfl | hx
    · decide
    · obtain ⟨hlt, hamp, -, hmark⟩ := encodeText_ascii _ x hx
      exact ⟨hlt, hamp, hmark⟩

theorem toNat_ascii {b : Nat} (hb : b < 128) : (Char.ofNat b).toNat = b := by
  have hvalid : b.isValidChar := .inl (by omega)
  rw [Char.ofNat, dif_pos hvalid]
  rfl

/-- ASCII characters are their own bytes. -/
theorem utf8_ascii {bytes : List Nat} (h : ∀ b ∈ bytes, b < 128) :
    utf8 (bytes.map Char.ofNat) = bytes := by
  induction bytes with
  | nil => rfl
  | cons b rest ih =>
    obtain ⟨hb, hrest⟩ := List.forall_mem_cons.mp h
    rw [utf8, List.map_cons, List.flatMap_cons, encodeChar, toNat_ascii hb, if_pos hb]
    exact congrArg (b :: ·) (ih hrest)

theorem mem_intercalate {sep x : Nat} {parts : List (List Nat)}
    (h : x ∈ [sep].intercalate parts) : x = sep ∨ ∃ part ∈ parts, x ∈ part := by
  induction parts with
  | nil => cases h
  | cons part rest ih =>
    cases rest with
    | nil =>
      rw [List.intercalate_singleton] at h
      exact .inr ⟨part, List.mem_cons_self .., h⟩
    | cons next rest =>
      rw [List.intercalate_cons_cons, List.append_assoc] at h
      rcases List.mem_append.mp h with h | h
      · exact .inr ⟨part, List.mem_cons_self .., h⟩
      · rcases List.mem_append.mp h with h | h
        · exact .inl (List.mem_singleton.mp h)
        · rcases ih h with h | ⟨other, hother, h⟩
          · exact .inl h
          · exact .inr ⟨other, List.mem_cons_of_mem _ hother, h⟩

theorem serialize_ascii (pairs : List (String × String)) :
    ∀ x ∈ [38].intercalate (pairs.map encodePair), x < 128 ∧ x ≠ 63 := by
  intro x hx
  rcases mem_intercalate hx with rfl | ⟨part, hpart, hx⟩
  · decide
  · obtain ⟨p, -, rfl⟩ := List.mem_map.mp hpart
    obtain ⟨hlt, -, hmark⟩ := encodePair_ascii p x hx
    exact ⟨hlt, hmark⟩

/-- A serialized list is ASCII without a question mark. -/
theorem serialize_toNat (pairs : List (String × String)) :
    ∀ c ∈ (serialize pairs).toList, c.toNat < 128 ∧ c ≠ '?' := by
  unfold serialize
  rw [String.toList_ofList]
  intro c hc
  obtain ⟨b, hb, rfl⟩ := List.mem_map.mp hc
  obtain ⟨hlt, hmark⟩ := serialize_ascii pairs b hb
  rw [toNat_ascii hlt]
  refine ⟨hlt, fun h => hmark ?_⟩
  rw [← toNat_ascii hlt, h]
  rfl

/-- What is serialized is parsed as it was. -/
theorem parse_serialize (pairs : List (String × String)) : parse (serialize pairs) = pairs := by
  unfold parse serialize
  rw [String.toList_ofList, utf8_ascii fun b hb => (serialize_ascii pairs b hb).1]
  cases pairs with
  | nil => rfl
  | cons p rest =>
    have hparts : ∀ part ∈ (p :: rest).map encodePair, 38 ∉ part := by
      intro part hpart hamp
      obtain ⟨q, -, rfl⟩ := List.mem_map.mp hpart
      exact (encodePair_ascii q 38 hamp).2.1 rfl
    have hfilter : ((p :: rest).map encodePair).filter (fun part => !part.isEmpty) =
        (p :: rest).map encodePair := by
      refine List.filter_eq_self.mpr fun part hpart => ?_
      obtain ⟨q, -, rfl⟩ := List.mem_map.mp hpart
      simp [encodePair]
    rw [List.splitOn_intercalate 38 hparts (by simp), hfilter, List.map_map]
    have hid : decodePair ∘ encodePair = id := funext decodePair_encodePair
    rw [hid, List.map_id]

/-- Bytes without `%` and `+` are decoded as UTF-8 only. -/
theorem decodeText_plain {cs : List Char} (h : ∀ b ∈ utf8 cs, b ≠ 37 ∧ b ≠ 43) :
    decodeText (utf8 cs) = String.ofList cs := by
  have hplus : (utf8 cs).map plusToSpace = utf8 cs := by
    refine (List.map_congr_left fun b hb => ?_).trans (List.map_id _)
    exact if_neg (h b hb).2
  have hpercent : ∀ {bytes : List Nat}, (∀ b ∈ bytes, b ≠ 37) → percentDecode bytes = bytes := by
    intro bytes hbytes
    induction bytes with
    | nil => rfl
    | cons b rest ih =>
      obtain ⟨hb, hrest⟩ := List.forall_mem_cons.mp hbytes
      rw [percentDecode_ne hb, ih hrest]
  rw [decodeText, hplus, hpercent fun b hb => (h b hb).1, decode_utf8]

/-- A single pair that needs no decoding is read as it stands. -/
theorem parse_plain {name value : List Char}
    (hname : ∀ b ∈ utf8 name, b ≠ 37 ∧ b ≠ 43 ∧ b ≠ 38 ∧ b ≠ 61)
    (hvalue : ∀ b ∈ utf8 value, b ≠ 37 ∧ b ≠ 43 ∧ b ≠ 38) :
    parse (String.ofList (name ++ '=' :: value)) = [(String.ofList name, String.ofList value)] := by
  have hbytes : utf8 (name ++ '=' :: value) = utf8 name ++ 61 :: utf8 value := by
    unfold utf8
    rw [List.flatMap_append, List.flatMap_cons]
    rfl
  have hsplit : (utf8 name ++ 61 :: utf8 value).splitOn 38 = [utf8 name ++ 61 :: utf8 value] := by
    have hamp : ∀ part ∈ [utf8 name ++ 61 :: utf8 value], 38 ∉ part := by
      intro part hpart hmem
      obtain rfl := List.mem_singleton.mp hpart
      rcases List.mem_append.mp hmem with hmem | hmem
      · exact (hname 38 hmem).2.2.1 rfl
      · rcases List.mem_cons.mp hmem with hmem | hmem
        · exact absurd hmem (by decide)
        · exact (hvalue 38 hmem).2.2 rfl
    have h := List.splitOn_intercalate 38 hamp (by simp)
    rwa [List.intercalate_singleton] at h
  have hfront : ∀ b ∈ utf8 name, (fun b : Nat => !(b == 61)) b = true := by
    intro b hb
    simpa using (hname b hb).2.2.2
  rw [parse, String.toList_ofList, hbytes, hsplit, List.filter_cons_of_pos (by simp),
    List.filter_nil, List.map_singleton, decodePair, List.takeWhile_append_of_pos hfront,
    List.dropWhile_append_of_pos hfront]
  show [(decodeText (utf8 name ++ []), decodeText (utf8 value))] = _
  rw [List.append_nil, decodeText_plain fun b hb => ⟨(hname b hb).1, (hname b hb).2.1⟩,
    decodeText_plain fun b hb => ⟨(hvalue b hb).1, (hvalue b hb).2.1⟩]

/-! ## Lengths -/

/-- The characters a character is written as. -/
def charCost (c : Char) : Nat :=
  if c = ' ' ∨ keeps c.toNat = true then 1 else 3 * (encodeChar c).length

def textCost (s : String) : Nat :=
  (s.toList.map charCost).sum

theorem length_encodeByte {b : Nat} (hspace : b ≠ 32) (hkeeps : ¬ keeps b = true) :
    (encodeByte b).length = 3 := by
  rw [encodeByte, if_neg hspace, if_neg hkeeps]
  rfl

/-- A byte of a character that is not ASCII is percent-encoded. -/
theorem encodeChar_ge {c : Char} (hc : ¬ c.toNat < 0x80) : ∀ b ∈ encodeChar c, 0x80 ≤ b := by
  intro b hb
  unfold encodeChar at hb
  dsimp only at hb
  rw [if_neg hc] at hb
  split at hb
  · simp only [List.mem_cons, List.not_mem_nil, or_false] at hb
    omega
  split at hb
  · simp only [List.mem_cons, List.not_mem_nil, or_false] at hb
    omega
  · simp only [List.mem_cons, List.not_mem_nil, or_false] at hb
    omega

theorem length_encodeChar (c : Char) :
    ((encodeChar c).flatMap encodeByte).length = charCost c := by
  have hchar : c = ' ' ↔ c.toNat = 32 := by
    constructor
    · rintro rfl
      rfl
    · intro h
      rw [← Char.ofNat_toNat c, h]
  unfold charCost
  by_cases hc : c.toNat < 0x80
  · have hbytes : encodeChar c = [c.toNat] := if_pos hc
    rw [hbytes, List.flatMap_singleton]
    by_cases hplain : c = ' ' ∨ keeps c.toNat = true
    · rw [if_pos hplain, encodeByte]
      rw [hchar] at hplain
      by_cases hspace : c.toNat = 32
      · rw [if_pos hspace]
        rfl
      · rw [if_neg hspace, if_pos (hplain.resolve_left hspace)]
        rfl
    · rw [if_neg hplain]
      rw [hchar] at hplain
      exact length_encodeByte (fun h => hplain (.inl h)) (fun h => hplain (.inr h))
  · have hge := encodeChar_ge hc
    have hnot : ∀ b, 0x80 ≤ b → b ≠ 32 ∧ ¬ keeps b = true := by
      intro b hb
      rw [keeps_iff]
      omega
    have hplain : ¬ (c = ' ' ∨ keeps c.toNat = true) := by
      rw [hchar]
      obtain ⟨hspace, hkeeps⟩ := hnot c.toNat (by omega)
      exact fun h => h.elim hspace hkeeps
    rw [if_neg hplain]
    -- every byte is written as three characters
    generalize encodeChar c = bytes at hge ⊢
    induction bytes with
    | nil => rfl
    | cons b rest ih =>
      obtain ⟨hb, hrest⟩ := List.forall_mem_cons.mp hge
      obtain ⟨hspace, hkeeps⟩ := hnot b hb
      rw [List.flatMap_cons, List.length_append, length_encodeByte hspace hkeeps, ih hrest,
        List.length_cons]
      omega

theorem length_encodeText (s : String) : (encodeText s).length = textCost s := by
  unfold encodeText utf8 textCost
  generalize s.toList = cs
  induction cs with
  | nil => rfl
  | cons c rest ih =>
    rw [List.flatMap_cons, List.flatMap_append, List.length_append, ih, length_encodeChar,
      List.map_cons, List.sum_cons]

/-- The length of a list as text: its pairs, with separators between them. -/
def listCost (pairs : List (String × String)) : Nat :=
  (pairs.map fun p => textCost p.1 + 1 + textCost p.2).sum + (pairs.length - 1)

theorem length_serialize (pairs : List (String × String)) :
    (serialize pairs).toList.length = listCost pairs := by
  unfold serialize listCost
  rw [String.toList_ofList, List.length_map]
  induction pairs with
  | nil => rfl
  | cons p rest ih =>
    have hpair : (encodePair p).length = textCost p.1 + 1 + textCost p.2 := by
      unfold encodePair
      rw [List.length_append, List.length_cons, length_encodeText, length_encodeText]
      omega
    cases rest with
    | nil =>
      rw [List.map_singleton, List.intercalate_singleton, hpair]
      rfl
    | cons q rest =>
      rw [List.map_cons, List.map_cons, List.intercalate_cons_cons, ← List.map_cons,
        List.length_append, List.length_append, ih, hpair]
      simp only [List.map_cons, List.sum_cons, List.length_cons, List.length_nil]
      omega

end UrlEncoded
