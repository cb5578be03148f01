import CipherFS.Framework.Bytes
import CipherFS.Framework.Result

/-!
# Text

`str` as a list of characters, with the methods of the standard library that
take a text apart. What a split cuts is put together again by its lemma.
-/

namespace CipherFS

/-- `str`. -/
abbrev Text : Type := List Char

namespace Text

/-! ## UTF-8 -/

/-- `str::from_utf8`. -/
def fromUtf8 (bytes : Bytes) : Result Text :=
  Result.ofOption ((String.fromUTF8? ⟨bytes.toArray⟩).map String.toList) "invalid utf-8 sequence"

/-- What may follow a first byte: how many bytes, and the range of the first of
them. -/
def continuation (first : UInt8) : Option (Nat × UInt8 × UInt8) :=
  if first < 0x80 then some (0, 0x80, 0xBF)
  else if 0xC2 ≤ first ∧ first ≤ 0xDF then some (1, 0x80, 0xBF)
  else if first = 0xE0 then some (2, 0xA0, 0xBF)
  else if first = 0xED then some (2, 0x80, 0x9F)
  else if 0xE1 ≤ first ∧ first ≤ 0xEF then some (2, 0x80, 0xBF)
  else if first = 0xF0 then some (3, 0x90, 0xBF)
  else if 0xF1 ≤ first ∧ first ≤ 0xF3 then some (3, 0x80, 0xBF)
  else if first = 0xF4 then some (3, 0x80, 0x8F)
  else none

/-- The bytes that continue a sequence, as far as they do. -/
def continued : Nat → UInt8 → UInt8 → Bytes → Bytes
  | n + 1, low, high, b :: rest =>
    if low ≤ b ∧ b ≤ high then b :: continued n 0x80 0xBF rest else []
  | _, _, _, _ => []

/-- `String::from_utf8_lossy`: each broken sequence becomes one U+FFFD. -/
def fromUtf8Lossy (bytes : Bytes) : Text :=
  go bytes.length bytes
where
  go : Nat → Bytes → Text
    | n + 1, first :: rest =>
      match continuation first with
      | none => '\uFFFD' :: go n rest
      | some (k, low, high) =>
        let more := continued k low high rest
        (if more.length = k then
            ((String.fromUTF8? ⟨(first :: more).toArray⟩).bind (·.toList.head?)).getD '\uFFFD'
          else '\uFFFD') :: go n (rest.drop more.length)
    | _, _ => []

example : String.ofList (fromUtf8Lossy [0x61, 0xC3, 0xA9, 0xE2, 0x82, 0x62]) = "aé\uFFFDb" := by
  decide +kernel

/-- `str::as_bytes`. -/
def utf8 (text : String) : Bytes := text.toUTF8.data.toList

/-- `str::len`. -/
def len (text : Text) : Nat := (text.map Char.utf8Size).sum

/-! ## Splitting -/

/-- `strip_suffix` of one character. -/
def stripSuffix (c : Char) (line : Text) : Text :=
  if line.getLast? = some c then line.dropLast else line

/-- `str::lines`: a line ends with `\n` or `\r\n`, and nothing follows the last
end. -/
def lines (text : Text) : List Text :=
  let pieces := text.splitOn '\n'
  pieces.dropLast.map (stripSuffix '\r') ++ pieces.getLast?.toList.filter (· ≠ [])

/-- `str::split_once`. -/
def splitOnce (sep : Char) (text : Text) : Option (Text × Text) :=
  match text.dropWhile (· ≠ sep) with
  | [] => none
  | _ :: rest => some (text.takeWhile (· ≠ sep), rest)

theorem eq_of_splitOnce {sep : Char} {text before rest : Text}
    (h : splitOnce sep text = some (before, rest)) : text = before ++ sep :: rest := by
  unfold splitOnce at h
  split at h
  · cases h
  · rename_i c tail hdrop
    obtain ⟨rfl, rfl⟩ : text.takeWhile (· ≠ sep) = before ∧ tail = rest := by simpa using h
    have hc : c = sep := by
      have hhead := List.head?_dropWhile_not (fun c : Char => decide (c ≠ sep)) text
      rw [hdrop] at hhead
      simpa using hhead
    calc text = text.takeWhile (· ≠ sep) ++ text.dropWhile (· ≠ sep) :=
          List.takeWhile_append_dropWhile.symm
      _ = text.takeWhile (· ≠ sep) ++ sep :: tail := by rw [hdrop, hc]

/-- `char::is_whitespace`. -/
def isWhitespace (c : Char) : Bool :=
  (0x09 ≤ c.toNat ∧ c.toNat ≤ 0x0d) ∨ (0x2000 ≤ c.toNat ∧ c.toNat ≤ 0x200a) ∨
    c.toNat ∈ [0x20, 0x85, 0xa0, 0x1680, 0x2028, 0x2029, 0x202f, 0x205f, 0x3000]

/-- `str::trim`. -/
def trim (text : Text) : Text :=
  ((text.dropWhile isWhitespace).reverse.dropWhile isWhitespace).reverse

/-- `trim_start_matches`. -/
def trimStartMatches (c : Char) (text : Text) : Text := text.dropWhile (· = c)

/-! ## Numbers -/

/-- The value of an ASCII hexadecimal digit, in either case. -/
def hexDigit (c : Char) : Option Nat := "0123456789abcdef".toList.idxOf? c.toLower

/-- `is_ascii_hexdigit`. -/
def isHexDigit (c : Char) : Bool := (hexDigit c).isSome

/-- The number that decimal digits stand for. -/
def ofDigits (digits : Text) : Nat :=
  digits.foldl (fun n c => 10 * n + (c.toNat - '0'.toNat)) 0

/-- `u64::from_str`. -/
def parseU64 (text : Text) : Result UInt64 := do
  let digits := match text with
    | '+' :: c :: rest => c :: rest
    | _ => text
  Result.rejectIf (digits = []) "cannot parse integer from empty string"
  Result.rejectIf (¬digits.all Char.isDigit) "invalid digit found in string"
  Result.rejectIf (2 ^ 64 ≤ ofDigits digits) "number too large to fit in target type"
  return UInt64.ofNat (ofDigits digits)

/-- The bytes that pairs of hexadecimal digits stand for. -/
def decodeHex : Text → Option Bytes
  | [] => some []
  | high :: low :: rest => do
      let h ← hexDigit high
      let l ← hexDigit low
      return UInt8.ofNat (16 * h + l) :: (← decodeHex rest)
  | _ => none

/-- `hex::encode`. -/
def hexEncode (bytes : Bytes) : Text :=
  bytes.flatMap fun b => [(b.toNat / 16).digitChar, (b.toNat % 16).digitChar]

/-- `eq_ignore_ascii_case`. -/
def eqIgnoreAsciiCase (a b : Text) : Bool := a.map Char.toLower = b.map Char.toLower

theorem hexDigit_digitChar : ∀ n < 16, hexDigit n.digitChar = some n := by decide

theorem hexDigit_congr {c d : Char} (h : c.toLower = d.toLower) : hexDigit c = hexDigit d := by
  rw [hexDigit, hexDigit, h]

/-- A text that shows some bytes, in either case, stands for exactly them. -/
theorem decodeHex_of_eqIgnoreAsciiCase : ∀ {bytes : Bytes} {text : Text},
    eqIgnoreAsciiCase (hexEncode bytes) text = true → decodeHex text = some bytes := by
  intro bytes
  induction bytes with
  | nil =>
      intro text h
      have : text = [] := by simpa [eqIgnoreAsciiCase, hexEncode, eq_comm] using h
      rw [this, decodeHex]
  | cons b bytes ih =>
      intro text h
      match text with
      | [] => simp [eqIgnoreAsciiCase, hexEncode] at h
      | [_] => simp [eqIgnoreAsciiCase, hexEncode] at h
      | high :: low :: rest =>
          obtain ⟨hhigh, hlow, hrest⟩ : (b.toNat / 16).digitChar.toLower = high.toLower ∧
              (b.toNat % 16).digitChar.toLower = low.toLower ∧
              eqIgnoreAsciiCase (hexEncode bytes) rest = true := by
            rw [eqIgnoreAsciiCase, decide_eq_true_eq] at h ⊢
            simpa [hexEncode] using h
          have hlt : b.toNat < 256 := b.toNat_lt
          rw [decodeHex, ← hexDigit_congr hhigh, ← hexDigit_congr hlow,
            hexDigit_digitChar _ (by omega), hexDigit_digitChar _ (by omega), ih hrest]
          show some (UInt8.ofNat (16 * (b.toNat / 16) + b.toNat % 16) :: bytes) = some (b :: bytes)
          rw [Nat.div_add_mod, UInt8.ofNat_toNat]

end Text

end CipherFS
