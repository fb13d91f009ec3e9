import Mathlib.Init

/-! Percent-encoding of texts.

`quote` writes the UTF-8 bytes of a text, those of safe characters as they are and the others as `%XX`;
`unquote` reads them back, and what is no UTF-8 becomes a replacement character. What was quoted is
read back (`unquote_quote`), also where it is followed by characters that are no escapes. -/
namespace Percent

abbrev Text := List Char

def ascii (c : Char) : Bool := c.toNat < 128

/-- What holds of every character of a text, by its test. -/
theorem forall_of_all {text : Text} {p : Char → Prop} [DecidablePred p]
    (h : text.all (fun c => decide (p c)) = true) : ∀ c ∈ text, p c :=
  fun c hc => of_decide_eq_true (List.all_eq_true.mp h c hc)

/-- The value of a hexadecimal digit. -/
def hexValue (c : Char) : Option Nat :=
  if '0' ≤ c ∧ c ≤ '9' then some (c.toNat - 48)
  else if 'a' ≤ c ∧ c ≤ 'f' then some (c.toNat - 87)
  else if 'A' ≤ c ∧ c ≤ 'F' then some (c.toNat - 55)
  else none

def hexDigit (n : Nat) : Char := Char.ofNat (if n < 10 then 48 + n else 55 + n)

/-- `quote_from_bytes`, of one byte. -/
def quoteByte (safe : Char → Bool) (byte : UInt8) : Text :=
  let c := Char.ofNat byte.toNat
  if byte.toNat < 128 && safe c then [c] else ['%', hexDigit (byte.toNat / 16), hexDigit (byte.toNat % 16)]

def quote (safe : Char → Bool) (text : Text) : Text := (text.flatMap String.utf8EncodeChar).flatMap (quoteByte safe)

/-- The bytes of a text of ASCII characters; an escape that is none is text. -/
def unquoteToBytes : Text → List UInt8
  | '%' :: a :: b :: rest =>
    match hexValue a, hexValue b with
    | some x, some y => UInt8.ofNat (x * 16 + y) :: unquoteToBytes rest
    | _, _ => UInt8.ofNat '%'.toNat :: unquoteToBytes (a :: b :: rest)
  | c :: rest => UInt8.ofNat c.toNat :: unquoteToBytes rest
  | [] => []

def continues (byte : UInt8) : Bool := 0x80 ≤ byte && byte ≤ 0xBF

/-- The bytes that may follow the first byte of a character, and how many more do. -/
def second (lead byte : UInt8) : Option Nat :=
  if 0xC2 ≤ lead && lead ≤ 0xDF then if continues byte then some 0 else none
  else if lead = 0xE0 then if 0xA0 ≤ byte && byte ≤ 0xBF then some 1 else none
  else if lead = 0xED then if 0x80 ≤ byte && byte ≤ 0x9F then some 1 else none
  else if 0xE1 ≤ lead && lead ≤ 0xEF then if continues byte then some 1 else none
  else if lead = 0xF0 then if 0x90 ≤ byte && byte ≤ 0xBF then some 2 else none
  else if lead = 0xF4 then if 0x80 ≤ byte && byte ≤ 0x8F then some 2 else none
  else if 0xF1 ≤ lead && lead ≤ 0xF3 then if continues byte then some 2 else none
  else none

/-- How many bytes are replaced at once: those that begin a character, of which no more follows. -/
def subpart : List UInt8 → Nat
  | lead :: byte :: rest =>
    match second lead byte with
    | none => 1
    | some more => 2 + (rest.take (more - 1)).countP continues
  | _ => 1

/-- UTF-8; each byte takes a turn at most. -/
def decodeFrom : Nat → List UInt8 → Text
  | 0, _ => []
  | _ + 1, [] => []
  | fuel + 1, bytes =>
    match bytes.toByteArray.utf8DecodeChar? 0 with
    | some c => c :: decodeFrom fuel (bytes.drop c.utf8Size)
    | none => '\uFFFD' :: decodeFrom fuel (bytes.drop (subpart bytes))

/-- Decoding with replacement of what is no UTF-8. -/
def decode (bytes : List UInt8) : Text := decodeFrom bytes.length bytes

/-- The ASCII characters of a text are unquoted run by run. -/
def unquoteRun (run : Text) : Text → Text
  | [] => decode (unquoteToBytes run)
  | c :: rest =>
    if ascii c then unquoteRun (run ++ [c]) rest
      else decode (unquoteToBytes run) ++ c :: unquoteRun [] rest

def unquote (text : Text) : Text := unquoteRun [] text

/-! ### Reading back -/

theorem hexValue_hexDigit {n : Nat} (h : n < 16) : hexValue (hexDigit n) = some n := by
  have hall : ∀ n : Fin 16, hexValue (hexDigit n) = some n.val := by decide
  exact hall ⟨n, h⟩

theorem ascii_hexDigit {n : Nat} (h : n < 16) : ascii (hexDigit n) = true := by
  have hall : ∀ n : Fin 16, ascii (hexDigit n) = true := by decide
  exact hall ⟨n, h⟩

theorem unquoteToBytes_cons {c : Char} (h : c ≠ '%') (rest : Text) :
    unquoteToBytes (c :: rest) = UInt8.ofNat c.toNat :: unquoteToBytes rest := by
  conv => lhs; unfold unquoteToBytes
  split
  case h_1 heq => exact absurd (List.cons.inj heq).1 h
  case h_2 heq =>
    cases heq
    rfl
  case h_3 heq => cases heq

section Quote
variable {safe : Char → Bool}

theorem toNat_ofNat_byte {byte : UInt8} (h : byte.toNat < 128) : (Char.ofNat byte.toNat).toNat = byte.toNat := by
  have hall : ∀ n : Fin 128, (Char.ofNat n).toNat = n.val := by decide +kernel
  exact hall ⟨byte.toNat, h⟩

/-- A byte that was quoted is read back; an escape is written for `%`. -/
theorem unquoteToBytes_quoteByte (hsafe : safe '%' = false) (byte : UInt8) (rest : Text) :
    unquoteToBytes (quoteByte safe byte ++ rest) = byte :: unquoteToBytes rest := by
  unfold quoteByte
  dsimp only
  split
  case isTrue h =>
    rw [Bool.and_eq_true, decide_eq_true_eq] at h
    have hne : Char.ofNat byte.toNat ≠ '%' := by
      intro heq
      rw [heq, hsafe] at h
      exact Bool.false_ne_true h.2
    rw [List.singleton_append, unquoteToBytes_cons hne, toNat_ofNat_byte h.1, UInt8.ofNat_toNat]
  case isFalse =>
    have hbyte := byte.toNat_lt
    have hhigh : byte.toNat / 16 < 16 := by omega
    have hlow : byte.toNat % 16 < 16 := Nat.mod_lt _ (by omega)
    show unquoteToBytes ('%' :: hexDigit (byte.toNat / 16) :: hexDigit (byte.toNat % 16) :: rest) = _
    rw [unquoteToBytes, hexValue_hexDigit hhigh, hexValue_hexDigit hlow]
    dsimp only
    rw [Nat.mul_comm, Nat.div_add_mod, UInt8.ofNat_toNat]

theorem unquoteToBytes_quote (hsafe : safe '%' = false) (text rest : Text) :
    unquoteToBytes (quote safe text ++ rest) = text.flatMap String.utf8EncodeChar ++ unquoteToBytes rest := by
  unfold quote
  induction text.flatMap String.utf8EncodeChar with
  | nil => rfl
  | cons byte bytes ih =>
    rw [List.flatMap_cons, List.append_assoc, unquoteToBytes_quoteByte hsafe, ih, List.cons_append]

theorem quote_append (text other : Text) : quote safe (text ++ other) = quote safe text ++ quote safe other := by
  unfold quote
  rw [List.flatMap_append, List.flatMap_append]

/-- What is quoted is ASCII: safe characters and escapes. -/
theorem mem_quote {text : Text} {c : Char} (h : c ∈ quote safe text) :
    ascii c = true ∧ (safe c = true ∨ c = '%' ∨ ∃ n < 16, c = hexDigit n) := by
  obtain ⟨byte, -, h⟩ := List.mem_flatMap.mp h
  unfold quoteByte at h
  dsimp only at h
  split at h
  case isTrue hsafe =>
    rw [Bool.and_eq_true, decide_eq_true_eq] at hsafe
    rw [List.mem_singleton.mp h]
    refine ⟨?_, .inl hsafe.2⟩
    unfold ascii
    rw [toNat_ofNat_byte hsafe.1]
    exact decide_eq_true hsafe.1
  case isFalse =>
    have hbyte := byte.toNat_lt
    have hhigh : byte.toNat / 16 < 16 := by omega
    have hlow : byte.toNat % 16 < 16 := Nat.mod_lt _ (by omega)
    obtain rfl | h := List.mem_cons.mp h
    · exact ⟨by decide, .inr (.inl rfl)⟩
    · obtain rfl | h := List.mem_cons.mp h
      · exact ⟨ascii_hexDigit hhigh, .inr (.inr ⟨_, hhigh, rfl⟩)⟩
      · rw [List.mem_singleton.mp h]
        exact ⟨ascii_hexDigit hlow, .inr (.inr ⟨_, hlow, rfl⟩)⟩

/-- A text of safe characters is quoted as it is. -/
theorem quote_of_safe {text : Text} (h : ∀ c ∈ text, ascii c = true ∧ safe c = true) : quote safe text = text := by
  induction text with
  | nil => rfl
  | cons c rest ih =>
    obtain ⟨hascii, hc⟩ := h c List.mem_cons_self
    have hrest := ih fun d hd => h d (List.mem_cons_of_mem _ hd)
    have hless : c.toNat < 128 := of_decide_eq_true hascii
    have hsize : c.utf8Size = 1 := Char.utf8Size_eq_one_iff.mpr (by
      rw [UInt32.le_iff_toNat_le]
      exact Nat.le_of_lt_succ hless)
    have hquote : quote safe [c] = [c] := by
      unfold quote
      rw [List.flatMap_cons, List.flatMap_nil, List.append_nil,
        String.utf8EncodeChar_eq_singleton hsize, List.flatMap_cons,
        List.flatMap_nil, List.append_nil]
      have hbyte : c.val.toUInt8.toNat = c.toNat := by
        show c.val.toNat % 256 = c.toNat
        exact Nat.mod_eq_of_lt (Nat.lt_trans hless (by decide))
      unfold quoteByte
      dsimp only
      rw [hbyte, Char.ofNat_toNat, hc, decide_eq_true hless]
      rfl
    rw [← List.singleton_append, quote_append, hquote, hrest]

/-- What is there is a character: its bytes are decoded. -/
theorem decodeFrom_encode (text : Text) {fuel : Nat} (h : (text.flatMap String.utf8EncodeChar).length ≤ fuel) :
    decodeFrom fuel (text.flatMap String.utf8EncodeChar) = text := by
  induction text generalizing fuel with
  | nil =>
    cases fuel <;> rfl
  | cons c rest ih =>
    rw [List.flatMap_cons] at h ⊢
    have hlength : (String.utf8EncodeChar c).length = c.utf8Size := String.length_utf8EncodeChar c
    have hpos := c.utf8Size_pos
    rw [List.length_append, hlength] at h
    cases fuel with
    | zero => omega
    | succ fuel =>
      cases hbytes : String.utf8EncodeChar c ++ rest.flatMap String.utf8EncodeChar with
      | nil =>
        have hzero := congrArg List.length hbytes
        rw [List.length_append, hlength] at hzero
        exact absurd hzero (by simp; omega)
      | cons byte bytes =>
        unfold decodeFrom
        have hdecode : (byte :: bytes).toByteArray.utf8DecodeChar? 0 = some c := by
          rw [← hbytes, List.toByteArray_append]
          exact ByteArray.utf8DecodeChar?_utf8EncodeChar_append
        rw [hdecode]
        dsimp only
        rw [← hbytes, ← hlength, List.drop_left, ih (by omega)]

theorem decode_encode (text : Text) : decode (text.flatMap String.utf8EncodeChar) = text :=
    decodeFrom_encode text (Nat.le_refl _)

theorem unquoteRun_ascii (run : Text) {text : Text} (h : ∀ c ∈ text, ascii c = true) :
    unquoteRun run text = decode (unquoteToBytes (run ++ text)) := by
  induction text generalizing run with
  | nil => rw [List.append_nil]; rfl
  | cons c rest ih =>
    unfold unquoteRun
    rw [if_pos (h c List.mem_cons_self), ih _ fun d hd => h d (List.mem_cons_of_mem _ hd),
      List.append_assoc, List.singleton_append]

/-- A text of ASCII characters is one run. -/
theorem unquote_ascii {text : Text} (h : ∀ c ∈ text, ascii c = true) :
    unquote text = decode (unquoteToBytes text) := unquoteRun_ascii [] h

theorem unquote_quote (hsafe : safe '%' = false) (text : Text) : unquote (quote safe text) = text := by
  rw [unquote_ascii fun c hc => (mem_quote hc).1]
  have hbytes := unquoteToBytes_quote hsafe text []
  rw [List.append_nil] at hbytes
  rw [hbytes]
  show decode (text.flatMap String.utf8EncodeChar ++ []) = text
  rw [List.append_nil, decode_encode]

end Quote

end Percent
