import LearnTogether.Base.Exec

/-!
# The two codecs of `run_fio.py`

Each text goes through `encode('unicode-escape')` and `decode('string_escape')` of Python 2.  The second codec undoes
the escapes of the first one byte by byte, so a code point below U+0100 ends as the one byte with its number, and it
does not know `\u` and `\U`, so the other code points stay spelled out (`stringEscapeDecode_unicodeEscape`).
-/

namespace LearnTogether.Fio

def hexDigit (d : Nat) : UInt8 := UInt8.ofNat (if d < 10 then 48 + d else 87 + d)

def hexValue (b : UInt8) : Option Nat :=
  if 48 ≤ b ∧ b ≤ 57 then some (b.toNat - 48)
  else if 97 ≤ b ∧ b ≤ 102 then some (b.toNat - 87)
  else if 65 ≤ b ∧ b ≤ 70 then some (b.toNat - 55)
  else none

def octalValue (b : UInt8) : Option Nat := if 48 ≤ b ∧ b ≤ 55 then some (b.toNat - 48) else none

/-- The last `k` hexadecimal digits of `n`. -/
def hexDigits : Nat → Nat → List UInt8
  | 0, _ => []
  | k + 1, n => hexDigits k (n / 16) ++ [hexDigit (n % 16)]

/-- `encode('unicode-escape')` of one character: the escapes are `\U`, `\u`, those of one letter, and `\x`. -/
def unicodeEscapeChar (c : Char) : List UInt8 :=
  let ch := c.toNat
  if ch = 92 then [92, 92]
  else if 0x10000 ≤ ch then [92, 85] ++ hexDigits 8 ch
  else if 256 ≤ ch then [92, 117] ++ hexDigits 4 ch
  else if ch = 9 then [92, 116]
  else if ch = 10 then [92, 110]
  else if ch = 13 then [92, 114]
  else if ch < 32 ∨ 127 ≤ ch then [92, 120] ++ hexDigits 2 ch
  else [UInt8.ofNat ch]

def unicodeEscape (text : List Char) : List UInt8 := text.flatMap unicodeEscapeChar

/-! ### The decoder -/

/-- The escapes of one letter that `string_escape` knows. -/
def letterEscape (b : UInt8) : Option UInt8 :=
  if b = 92 ∨ b = 39 ∨ b = 34 then some b
  else if b = 98 then some 8
  else if b = 102 then some 12
  else if b = 116 then some 9
  else if b = 110 then some 10
  else if b = 114 then some 13
  else if b = 118 then some 11
  else if b = 97 then some 7
  else none

/-- Where the decoder is in an escape; after an octal digit at most `more` of them may follow. -/
inductive Escape
  | none
  | backslash
  | hex
  | hexLow (high : Nat)
  | octal (n : Nat) (more : Nat)
  deriving DecidableEq

structure Decoder where
  escape : Escape := .none
  out : List UInt8 := []
  deriving DecidableEq

namespace Decoder

def put (d : Decoder) (bs : List UInt8) : Decoder := { escape := .none, out := d.out ++ bs }

def plainStep (d : Decoder) (b : UInt8) : Decoder :=
  if b = 92 then { d with escape := .backslash } else d.put [b]

/-- `none` for the `ValueError` of a wrong `\x`. -/
def step (d : Decoder) (b : UInt8) : Option Decoder :=
  match d.escape with
  | .none => some (d.plainStep b)
  | .backslash =>
    if b = 10 then some (d.put [])
    else if b = 120 then some { d with escape := .hex }
    else
      match letterEscape b, octalValue b with
      | some c, _ => some (d.put [c])
      | none, some n => some { d with escape := .octal n 2 }
      -- an unknown escape stays as it is
      | none, none => some (d.put [92, b])
  | .hex => (hexValue b).map fun high => { d with escape := .hexLow high }
  | .hexLow high => (hexValue b).map fun low => d.put [UInt8.ofNat (16 * high + low)]
  | .octal n more =>
    match octalValue b with
    | some v =>
      if 1 < more then some { d with escape := .octal (8 * n + v) (more - 1) }
      else some (d.put [UInt8.ofNat (8 * n + v)])
    | none => some ((d.put [UInt8.ofNat n]).plainStep b)

/-- `none` for the `ValueError` of a string that ends inside an escape. -/
def finish (d : Decoder) : Option (List UInt8) :=
  match d.escape with
  | .none => some d.out
  | .octal n _ => some (d.put [UInt8.ofNat n]).out
  | _ => none

end Decoder

/-- `decode('string_escape')`, `none` for a `ValueError`. -/
def stringEscapeDecode (bs : List UInt8) : Option (List UInt8) := do
  let d ← Exec.exec Decoder.step {} bs
  d.finish

/-! ### One codec after the other -/

/-- What one character becomes. -/
def recoded (c : Char) : List UInt8 := if c.toNat < 256 then [UInt8.ofNat c.toNat] else unicodeEscapeChar c

theorem recoded_latin {c : Char} (h : c.toNat < 256) : recoded c = [UInt8.ofNat c.toNat] := if_pos h

theorem recoded_wide {c : Char} (h : 256 ≤ c.toNat) : recoded c = unicodeEscapeChar c := if_neg (by omega)

/-- Beyond U+00FF a character is spelled out. -/
theorem unicodeEscapeChar_wide {c : Char} (h : 256 ≤ c.toNat) :
    unicodeEscapeChar c = [92, 85] ++ hexDigits 8 c.toNat ∨
      unicodeEscapeChar c = [92, 117] ++ hexDigits 4 c.toNat := by
  by_cases hastral : 0x10000 ≤ c.toNat
  · left
    rw [unicodeEscapeChar, if_neg (by omega), if_pos hastral]
  · right
    rw [unicodeEscapeChar, if_neg (by omega), if_neg hastral, if_pos h]

private theorem ofNat_ne {n k : Nat} (hn : n < 256) (hk : k < 256) (h : n ≠ k) : UInt8.ofNat n ≠ UInt8.ofNat k := by
  intro he
  have he := congrArg UInt8.toNat he
  rw [UInt8.toNat_ofNat_of_lt' hn, UInt8.toNat_ofNat_of_lt' hk] at he
  exact h he

private theorem hexDigit_spec : ∀ d < 16, hexValue (hexDigit d) = some d ∧ hexDigit d < 128 ∧ hexDigit d ≠ 92 := by
  decide

theorem mem_hexDigits {k n : Nat} {b : UInt8} (h : b ∈ hexDigits k n) : b < 128 ∧ b ≠ 92 := by
  induction k generalizing n with
  | zero => cases h
  | succ k ih =>
    rw [hexDigits, List.mem_append, List.mem_singleton] at h
    rcases h with h | rfl
    · exact ih h
    · exact (hexDigit_spec _ (Nat.mod_lt _ (by omega))).2

namespace Decoder

/-- Outside of an escape, bytes other than the backslash are copied. -/
private theorem exec_copy (out : List UInt8) {bs : List UInt8} (h : ∀ b ∈ bs, b ≠ 92) :
    Exec.exec step { out := out } bs = some { out := out ++ bs } := by
  induction bs generalizing out with
  | nil => simp
  | cons b bs ih =>
    have hb : step { out := out } b = some { out := out ++ [b] } := by
      simp [step, plainStep, put, h b (List.mem_cons_self ..)]
    have ih := ih (out ++ [b]) fun c hc => h c (List.mem_cons_of_mem _ hc)
    rw [List.append_assoc] at ih
    exact Exec.exec_cons_some.2 ⟨_, hb, ih⟩

/-- An escape that the decoder does not know stays spelled out. -/
private theorem exec_unknown {out : List UInt8} {b : UInt8} {k n : Nat}
    (hb : step { escape := .backslash, out := out } b = some { out := out ++ [92, b] }) :
    Exec.exec step { out := out } ([92, b] ++ hexDigits k n) = some { out := out ++ ([92, b] ++ hexDigits k n) } := by
  have hcopy : Exec.exec step { out := out ++ [92, b] } (hexDigits k n) =
      some { out := out ++ [92, b] ++ hexDigits k n } :=
    exec_copy _ fun c hc => (mem_hexDigits hc).2
  have hescape : Exec.exec step { out := out } [92, b] = some { out := out ++ [92, b] } :=
    Exec.exec_cons_some.2 ⟨_, rfl, Exec.exec_cons_some.2 ⟨_, hb, rfl⟩⟩
  rw [Exec.exec_append, hescape, Option.bind_some, hcopy, List.append_assoc]

/-- The two digits of `\x` are one byte again. -/
private theorem exec_hex {out : List UInt8} {n : Nat} (hn : n < 256) :
    Exec.exec step { out := out } ([92, 120] ++ hexDigits 2 n) = some { out := out ++ [UInt8.ofNat n] } := by
  have hhigh := (hexDigit_spec (n / 16 % 16) (Nat.mod_lt _ (by omega))).1
  have hlow := (hexDigit_spec (n % 16) (Nat.mod_lt _ (by omega))).1
  have hvalue : 16 * (n / 16 % 16) + n % 16 = n := by omega
  have hbyte : step { escape := .hexLow (n / 16 % 16), out := out } (hexDigit (n % 16)) =
      some { out := out ++ [UInt8.ofNat n] } := by
    simp only [step, hlow, Option.map_some, hvalue, put]
  have hhigh : step { escape := .hex, out := out } (hexDigit (n / 16 % 16)) =
      some { escape := .hexLow (n / 16 % 16), out := out } := by
    simp only [step, hhigh, Option.map_some]
  exact Exec.exec_cons_some.2 ⟨_, rfl, Exec.exec_cons_some.2 ⟨_, rfl,
    Exec.exec_cons_some.2 ⟨_, hhigh, Exec.exec_cons_some.2 ⟨_, hbyte, rfl⟩⟩⟩⟩

/-- The decoder turns the escape of one character into `recoded`, and is outside of an escape again. -/
private theorem exec_unicodeEscapeChar (out : List UInt8) (c : Char) :
    Exec.exec step { out := out } (unicodeEscapeChar c) = some { out := out ++ recoded c } := by
  by_cases hwide : 256 ≤ c.toNat
  · rw [recoded_wide hwide]
    rcases unicodeEscapeChar_wide hwide with hescape | hescape
    · rw [hescape]
      exact exec_unknown rfl
    · rw [hescape]
      exact exec_unknown rfl
  · rw [recoded_latin (by omega)]
    unfold unicodeEscapeChar
    dsimp only
    split_ifs with hbackslash hastral htab hline hreturn hcontrol
    · rw [hbackslash]
      rfl
    · omega
    · rw [htab]
      rfl
    · rw [hline]
      rfl
    · rw [hreturn]
      rfl
    · exact exec_hex (by omega)
    · refine exec_copy out fun b hb => ?_
      rw [List.mem_singleton.1 hb]
      exact ofNat_ne (k := 92) (by omega) (by omega) hbackslash

end Decoder

/-- Both codecs together act on each character alone. -/
theorem stringEscapeDecode_unicodeEscape (text : List Char) :
    stringEscapeDecode (unicodeEscape text) = some (text.flatMap recoded) := by
  have hexec : ∀ out, Exec.exec Decoder.step { out := out } (unicodeEscape text) =
      some { out := out ++ text.flatMap recoded } := by
    induction text with
    | nil => simp [unicodeEscape]
    | cons c text ih =>
      intro out
      have ih := ih (out ++ recoded c)
      rw [unicodeEscape] at ih ⊢
      rw [List.flatMap_cons, Exec.exec_append, Decoder.exec_unicodeEscapeChar, Option.bind_some, ih,
        List.flatMap_cons, List.append_assoc]
  unfold stringEscapeDecode
  rw [hexec]
  rfl

/-- One byte for the first character, and `\u20ac` for the second. -/
example : stringEscapeDecode (unicodeEscape ['é', '€']) = some [233, 92, 117, 50, 48, 97, 99] := by decide

end LearnTogether.Fio
