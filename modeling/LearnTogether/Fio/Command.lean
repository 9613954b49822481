import LearnTogether.Base.ShellWords
import LearnTogether.Fio.Codec

/-!
# The command line of `run_fio.py`

The script joins the recoded options and values without quoting them and gives the string to a POSIX shell, which
has no brace expansion.  So `fio` gets the configured arguments exactly if all characters are ASCII characters that
stand for themselves in an unquoted word and no argument is a pattern (`passesUnchanged_iff`).

In one direction the bytes are counted: a character beyond ASCII has fewer bytes from 128 on after the codecs than in
UTF-8 (`ascii_of_high`), a quoting character is lost on the way, and then no special character gets into an argument.
In the other direction every argument is a word that the shell reads as it stands.
-/

namespace LearnTogether.Fio

abbrev Text := List Char

/-- An option of the section FIO and its value. -/
abbrev Item := Text × Text

def utf8 (text : Text) : List UInt8 := text.flatMap String.utf8EncodeChar

private theorem utf8_append (t u : Text) : utf8 (t ++ u) = utf8 t ++ utf8 u := List.flatMap_append

def codecs (text : Text) : Option (List UInt8) := stringEscapeDecode (unicodeEscape text)

/-- One turn of the loop over the items. -/
def addItem (cmd : List UInt8) (item : Item) : Option (List UInt8) := do
  let command ← codecs item.1
  let value ← codecs item.2
  let result := utf8 [' ', '-', '-'] ++ command ++ utf8 ['='] ++ value
  return cmd ++ result

def fio : Text := ['f', 'i', 'o']

def resultFile : Text := ['.', '/', 'r', 'e', 's', 'u', 'l', 't', '.', 'j', 's', 'o', 'n']

/-- The string for `os.system`. -/
def systemCommand (items : List Item) : Option (List UInt8) := do
  let cmd ← items.foldlM addItem []
  let cmd := utf8 fio ++ cmd
  return cmd ++ utf8 ([' ', '>', ' '] ++ resultFile)

/-- `os.system` has a shell run the string; a string with a null byte is a `TypeError`. -/
def osSystem (glob : Shell.Word → List (List UInt8)) (command : List UInt8) : Option Shell.Invocation :=
  if 0 ∈ command then none else Shell.run glob command

/-- What the script runs in a directory described by `glob`. -/
def runFio (glob : Shell.Word → List (List UInt8)) (items : List Item) : Option Shell.Invocation := do
  let command ← systemCommand items
  osSystem glob command

/-! ### The specification -/

/-- The argument for an item. -/
def argument (item : Item) : Text := ['-', '-'] ++ item.1 ++ ['='] ++ item.2

/-- In every directory one command is run, `fio` with the configured arguments and its output in the result file. -/
def PassesUnchanged (items : List Item) : Prop :=
  ∀ glob, runFio glob items =
    some ⟨utf8 fio :: items.map fun item => utf8 (argument item), [(1, .output, utf8 resultFile)]⟩

/-- An ASCII character other than NUL that stands for itself in an unquoted word. -/
def Harmless (c : Char) : Prop := c.toNat < 128 ∧ c.toNat ≠ 0 ∧ Shell.plain (UInt8.ofNat c.toNat) = true

instance (c : Char) : Decidable (Harmless c) := inferInstanceAs (Decidable (_ ∧ _ ∧ _))

/-- All characters are harmless and the argument is no pattern for pathname expansion. -/
structure Passable (item : Item) : Prop where
  harmless : ∀ c ∈ item.1 ++ item.2, Harmless c
  noPattern : Shell.isPattern (Shell.literal (utf8 (argument item))) = false

/-! ### The string -/

/-- What the codecs make of a text. -/
def recode (text : Text) : List UInt8 := text.flatMap recoded

private theorem recode_append (t u : Text) : recode (t ++ u) = recode t ++ recode u := List.flatMap_append

private theorem addItem_eq (cmd : List UInt8) (item : Item) :
    addItem cmd item = some (cmd ++ 32 :: recode (argument item)) := by
  simp only [addItem, codecs, stringEscapeDecode_unicodeEscape, argument, recode_append]
  rfl

private theorem foldlM_addItem (cmd : List UInt8) (items : List Item) :
    items.foldlM addItem cmd = some (cmd ++ (items.map fun item => recode (argument item)).flatMap (32 :: ·)) := by
  induction items generalizing cmd with
  | nil => simp
  | cons item items ih =>
    rw [List.foldlM_cons, addItem_eq, List.map_cons, List.flatMap_cons, ← List.append_assoc]
    exact ih _

/-- The string for `os.system` in the form in which the shell reads it. -/
def commandLine (items : List Item) : List UInt8 :=
  utf8 fio ++ ((items.map fun item => recode (argument item)).flatMap (32 :: ·) ++ [32]) ++
    ([62, 32] ++ utf8 resultFile)

private theorem systemCommand_eq (items : List Item) : systemCommand items = some (commandLine items) := by
  have hcmd := foldlM_addItem [] items
  rw [List.nil_append] at hcmd
  unfold systemCommand commandLine
  rw [hcmd]
  simp only [Option.bind_eq_bind, Option.bind_some, List.append_assoc]
  rfl

/-! ### Characters -/

/-- The bytes that only characters beyond ASCII have in UTF-8. -/
def high (b : UInt8) : Bool := 128 ≤ b

private theorem utf8EncodeChar_ascii {c : Char} (h : c.toNat < 128) : String.utf8EncodeChar c =
    [UInt8.ofNat c.toNat] := by
  have hv : c.val.toNat ≤ 0x7f := Nat.le_of_lt_succ h
  unfold String.utf8EncodeChar
  rw [if_pos hv]
  rfl

private theorem high_ofNat {n : Nat} (h : 128 ≤ n) (hn : n < 256) : high (UInt8.ofNat n) = true := by
  have hle : (128 : UInt8).toNat ≤ (UInt8.ofNat n).toNat := by
    rw [UInt8.toNat_ofNat_of_lt' hn]
    exact h
  exact decide_eq_true hle

private theorem high_hexDigits (k n : Nat) : (hexDigits k n).countP high = 0 := by
  rw [List.countP_eq_zero]
  intro b hb
  have hlt := (mem_hexDigits hb).1
  simpa [high, UInt8.not_le] using hlt

/-- In UTF-8 a character beyond ASCII has at least two bytes from 128 on. -/
private theorem high_utf8EncodeChar {c : Char} (h : 128 ≤ c.toNat) : 2 ≤ (String.utf8EncodeChar c).countP high := by
  have hv : 128 ≤ c.val.toNat := h
  unfold String.utf8EncodeChar
  dsimp only
  rw [if_neg (by omega)]
  split_ifs <;> simp (disch := omega) only [List.countP_cons, List.countP_nil, high_ofNat] <;> decide

/-- After the codecs every character has at most one byte from 128 on. -/
private theorem high_recoded (c : Char) : (recoded c).countP high ≤ 1 := by
  have hescape : ∀ b k, high b = false → ([92, b] ++ hexDigits k c.toNat).countP high ≤ 1 := by
    intro b k hb
    rw [List.countP_append, high_hexDigits, List.countP_cons, List.countP_singleton, hb]
    decide
  by_cases hwide : 256 ≤ c.toNat
  · rw [recoded_wide hwide]
    rcases unicodeEscapeChar_wide hwide with h | h
    · rw [h]
      exact hescape 85 8 rfl
    · rw [h]
      exact hescape 117 4 rfl
  · rw [recoded_latin (by omega)]
    exact List.countP_le_length

/-! ### Counting -/

private theorem countP_recode_le (text : Text) : (recode text).countP high ≤ (utf8 text).countP high := by
  induction text with
  | nil => exact Nat.le_refl _
  | cons c text ih =>
    have hc : (recoded c).countP high ≤ (String.utf8EncodeChar c).countP high := by
      by_cases hascii : c.toNat < 128
      · have heq : recoded c = String.utf8EncodeChar c := by
          rw [recoded_latin (by omega), utf8EncodeChar_ascii hascii]
        exact Nat.le_of_eq (congrArg _ heq)
      · have h₁ := high_recoded c
        have h₂ := high_utf8EncodeChar (Nat.le_of_not_lt hascii)
        omega
    rw [recode, utf8] at ih ⊢
    rw [List.flatMap_cons, List.flatMap_cons, List.countP_append, List.countP_append]
    omega

/-- A text that keeps its number of bytes from 128 on has only ASCII characters. -/
theorem ascii_of_high {text : Text} (h : (utf8 text).countP high ≤ (recode text).countP high) :
    ∀ c ∈ text, c.toNat < 128 := by
  induction text with
  | nil => simp
  | cons c text ih =>
    have hrest := countP_recode_le text
    rw [recode, utf8] at h ih hrest
    rw [List.flatMap_cons, List.flatMap_cons, List.countP_append, List.countP_append] at h
    have hascii : c.toNat < 128 := by
      by_contra hwide
      have h₁ := high_recoded c
      have h₂ := high_utf8EncodeChar (Nat.le_of_not_lt hwide)
      omega
    rw [recoded_latin (by omega), utf8EncodeChar_ascii hascii] at h
    rw [List.forall_mem_cons]
    exact ⟨hascii, ih (by omega)⟩

private theorem recode_ascii {text : Text} (h : ∀ c ∈ text, c.toNat < 128) : recode text = utf8 text := by
  induction text with
  | nil => rfl
  | cons c text ih =>
    obtain ⟨hc, hrest⟩ := List.forall_mem_cons.1 h
    have ih := ih hrest
    rw [recode, utf8] at ih ⊢
    rw [List.flatMap_cons, List.flatMap_cons, recoded_latin (by omega), utf8EncodeChar_ascii hc, ih]

private theorem mem_utf8 {text : Text} (h : ∀ c ∈ text, c.toNat < 128) {b : UInt8} :
    b ∈ utf8 text ↔ ∃ c ∈ text, UInt8.ofNat c.toNat = b := by
  unfold utf8
  rw [List.mem_flatMap]
  refine exists_congr fun c => and_congr_right fun hc => ?_
  rw [utf8EncodeChar_ascii (h c hc), List.mem_singleton, eq_comm]

/-! ### The bytes of the string -/

/-- The words that the string should have, one after the other. -/
def words (items : List Item) : Text := fio ++ items.flatMap argument ++ resultFile

private theorem countP_commandLine {p : UInt8 → Bool} (h₁ : p 32 = false) (h₂ : p 62 = false) (items : List Item) :
    (commandLine items).countP p = (recode (words items)).countP p := by
  have hargs : ((items.map fun item => recode (argument item)).flatMap (32 :: ·)).countP p =
      (recode (items.flatMap argument)).countP p := by
    induction items with
    | nil => rfl
    | cons item items ih =>
      rw [List.map_cons, List.flatMap_cons, List.flatMap_cons, recode_append, List.countP_append, List.countP_append,
        List.countP_cons, h₁, ih]
      rfl
  have hfio : recode fio = utf8 fio := rfl
  have hfile : recode resultFile = utf8 resultFile := rfl
  rw [commandLine, words, recode_append, recode_append, hfio, hfile]
  simp [List.countP_append, h₁, h₂, hargs]

private theorem exists_commandLine {p : UInt8 → Bool} (h₁ : p 32 = false) (h₂ : p 62 = false) (items : List Item) :
    (∃ b ∈ commandLine items, p b = true) ↔ ∃ b ∈ recode (words items), p b = true := by
  rw [← List.countP_pos_iff, ← List.countP_pos_iff, countP_commandLine h₁ h₂]

/-! ### What passes is harmless -/

private theorem runFio_some {glob : Shell.Word → List (List UInt8)} {items : List Item} {i : Shell.Invocation}
    (h : runFio glob items = some i) : 0 ∉ commandLine items ∧ Shell.run glob (commandLine items) = some i := by
  simp only [runFio, systemCommand_eq, Option.bind_eq_bind, Option.bind_some, osSystem] at h
  split at h
  · cases h
  · rename_i hz
    exact ⟨hz, h⟩

/-- If the arguments pass unchanged, the shell reads them as words with these bytes. -/
theorem PassesUnchanged.read {items : List Item} (h : PassesUnchanged items) :
    ∃ c, Shell.read (commandLine items) = some c ∧ c.bytes = utf8 (words items) ∧
      ∀ glob, c.words.flatMap (Shell.expand glob) = c.words.map Shell.bytes := by
  have hread := fun glob => Option.map_eq_some_iff.1 (runFio_some (h glob)).2
  obtain ⟨c, hc, hi⟩ := hread fun _ => []
  injection hi with hargs htargets
  have hself : c.words.flatMap (Shell.expand fun _ => []) = c.words.map Shell.bytes :=
    Shell.flatMap_expand fun w _ => by simp [Shell.expand]
  refine ⟨c, hc, ?_, ?_⟩
  · obtain ⟨r, hr, hfile⟩ := List.map_eq_singleton_iff.1 htargets
    have hfile : Shell.bytes r.target = utf8 resultFile := congrArg (fun t => t.2.2) hfile
    have hwords : c.words.flatMap Shell.bytes = utf8 fio ++ utf8 (items.flatMap argument) := by
      rw [List.flatMap_def, ← hself, hargs, List.flatten_cons, ← List.flatMap_def, utf8, utf8, List.flatMap_assoc]
      rfl
    rw [Shell.Command.bytes, hwords, hr, List.flatMap_singleton, hfile, words, utf8_append, utf8_append]
  · intro glob
    obtain ⟨d, hd, hi⟩ := hread glob
    obtain rfl : c = d := Option.some.inj (hc.symm.trans hd)
    rw [← hself, hargs]
    exact congrArg Shell.Invocation.argv hi

private theorem PassesUnchanged.harmless {items : List Item} (h : PassesUnchanged items) :
    ∀ c ∈ words items, Harmless c := by
  obtain ⟨c, hc, hbytes, -⟩ := h.read
  -- no byte from 128 on can be added on the way
  have hascii : ∀ c ∈ words items, c.toNat < 128 := by
    have hle := Shell.kept_le hc high
    rw [hbytes, countP_commandLine rfl rfl] at hle
    exact ascii_of_high hle
  -- none of the quoting bytes of the line is lost, so there are none
  have hquoting : ∀ b ∈ commandLine items, Shell.quoting b = false := by
    intro b hb
    by_contra hq
    have hlt := Shell.kept_lt_of_quoting hc ⟨b, hb, by simpa using hq⟩
    rw [hbytes, countP_commandLine rfl rfl, recode_ascii hascii] at hlt
    omega
  have hplain := Shell.plain_of_unquoted hc hquoting
  have hzero : ¬∃ b ∈ commandLine items, (b == 0) = true := by
    simpa using (runFio_some (h fun _ => [])).1
  rw [exists_commandLine rfl rfl, recode_ascii hascii] at hzero
  intro ch hch
  have hmem : UInt8.ofNat ch.toNat ∈ utf8 (words items) := (mem_utf8 hascii).2 ⟨ch, hch, rfl⟩
  refine ⟨hascii ch hch, fun hnul => hzero ⟨_, hmem, ?_⟩, hplain _ (hbytes ▸ hmem)⟩
  rw [hnul]
  rfl

/-! ### What is harmless passes -/

private theorem solid_of_harmless {text : Text} {c : Char} (hc : Shell.classify (UInt8.ofNat c.toNat) = .other)
    (h : ∀ d ∈ c :: text, Harmless d) : Shell.Solid (utf8 (c :: text)) := by
  have hascii : ∀ d ∈ c :: text, d.toNat < 128 := fun d hd => (h d hd).1
  refine ⟨⟨UInt8.ofNat c.toNat, utf8 text, ?_, hc⟩, ?_⟩
  · rw [utf8, List.flatMap_cons, utf8EncodeChar_ascii (hascii c (List.mem_cons_self ..))]
    rfl
  · intro b hb
    obtain ⟨d, hd, rfl⟩ := (mem_utf8 hascii).1 hb
    exact (h d hd).2.2

/-- The reading of the line, when all characters are harmless. -/
private theorem read_of_harmless {items : List Item} (h : ∀ c ∈ words items, Harmless c) :
    Shell.read (commandLine items) =
      some { words := (utf8 fio :: items.map fun item => utf8 (argument item)).map Shell.literal
             redirects := [⟨1, .output, Shell.literal (utf8 resultFile)⟩] } := by
  have hargument : ∀ item ∈ items, ∀ c ∈ argument item, Harmless c := by
    intro item hitem c hc
    refine h c ?_
    unfold words
    rw [List.mem_append, List.mem_append, List.mem_flatMap]
    exact Or.inl (Or.inr ⟨item, hitem, hc⟩)
  have hrecode : (items.map fun item => recode (argument item)) = items.map fun item => utf8 (argument item) :=
    List.map_congr_left fun item hitem => recode_ascii fun c hc => (hargument item hitem c hc).1
  unfold commandLine
  rw [hrecode]
  refine Shell.read_solid ?_ ?_ ?_
  · exact solid_of_harmless rfl fun c hc => h c (List.mem_append_left _ (List.mem_append_left _ hc))
  · intro bs hbs
    obtain ⟨item, hitem, rfl⟩ := List.mem_map.1 hbs
    exact solid_of_harmless rfl (hargument item hitem)
  · exact solid_of_harmless rfl fun c hc => h c (List.mem_append_right _ hc)

private theorem words_harmless {items : List Item} (h : ∀ item ∈ items, Passable item) :
    ∀ c ∈ words items, Harmless c := by
  have hfio : fio.all (fun c => decide (Harmless c)) = true := by decide
  have hfile : resultFile.all (fun c => decide (Harmless c)) = true := by decide
  have hdash : Harmless '-' := by decide
  have hequals : Harmless '=' := by decide
  intro c hc
  unfold words at hc
  rw [List.mem_append, List.mem_append, List.mem_flatMap] at hc
  rcases hc with (hc | ⟨item, hitem, hc⟩) | hc
  · exact of_decide_eq_true (List.all_eq_true.1 hfio c hc)
  · have hharmless := (h item hitem).harmless
    simp only [argument, List.mem_append, List.mem_cons, List.not_mem_nil, or_false] at hc hharmless
    rcases hc with (((rfl | rfl) | hc) | rfl) | hc
    · exact hdash
    · exact hdash
    · exact hharmless c (Or.inl hc)
    · exact hequals
    · exact hharmless c (Or.inr hc)
  · exact of_decide_eq_true (List.all_eq_true.1 hfile c hc)

private theorem passes_of_passable {items : List Item} (h : ∀ item ∈ items, Passable item) : PassesUnchanged items := by
  have hharmless := words_harmless h
  have hascii : ∀ c ∈ words items, c.toNat < 128 := fun c hc => (hharmless c hc).1
  have hzero : 0 ∉ commandLine items := by
    intro hz
    have hex := (exists_commandLine (p := (· == 0)) rfl rfl items).1 ⟨0, hz, rfl⟩
    rw [recode_ascii hascii] at hex
    obtain ⟨b, hb, hb0⟩ := hex
    obtain ⟨c, hc, rfl⟩ := (mem_utf8 hascii).1 hb
    have hlt : c.toNat < 256 := by
      have h128 := hascii c hc
      omega
    have hnat := congrArg UInt8.toNat (beq_iff_eq.1 hb0)
    rw [UInt8.toNat_ofNat_of_lt' hlt] at hnat
    exact (hharmless c hc).2.1 hnat
  intro glob
  have hexpand : ∀ w ∈ (utf8 fio :: items.map fun item => utf8 (argument item)).map Shell.literal,
      Shell.expand glob w = [Shell.bytes w] := by
    intro w hw
    rw [List.map_cons, List.mem_cons] at hw
    rcases hw with rfl | hw
    · exact Shell.expand_of_noPattern rfl glob
    · obtain ⟨bs, hbs, rfl⟩ := List.mem_map.1 hw
      obtain ⟨item, hitem, rfl⟩ := List.mem_map.1 hbs
      exact Shell.expand_of_noPattern (h item hitem).noPattern glob
  simp only [runFio, systemCommand_eq, Option.bind_eq_bind, Option.bind_some, osSystem, if_neg hzero, Shell.run,
    read_of_harmless hharmless, Option.map_some, Shell.flatMap_expand hexpand]
  simp [Function.comp_def]

/-- A pattern may be expanded to something else. -/
private theorem PassesUnchanged.noPattern {items : List Item} (h : PassesUnchanged items) {item : Item}
    (hitem : item ∈ items) : Shell.isPattern (Shell.literal (utf8 (argument item))) = false := by
  obtain ⟨c, hc, -, hexpand⟩ := h.read
  rw [read_of_harmless h.harmless] at hc
  have hmem : Shell.literal (utf8 (argument item)) ∈ c.words := by
    rw [← Option.some.inj hc]
    exact List.mem_map_of_mem (List.mem_cons_of_mem _ (List.mem_map_of_mem hitem))
  -- in a directory that has for every pattern a pathname that matches it
  have hsample := hexpand fun w => [Shell.sample w]
  rw [Shell.flatMap_expand (f := fun w => if Shell.isPattern w then Shell.sample w else Shell.bytes w)] at hsample
  · have heq := List.map_inj_left.1 hsample _ hmem
    by_contra hp
    rw [Bool.not_eq_false] at hp
    rw [if_pos hp] at heq
    exact Shell.sample_ne hp heq
  · intro w _
    unfold Shell.expand
    split_ifs <;> simp_all

/-- The arguments pass unchanged exactly if every item is passable. -/
theorem passesUnchanged_iff (items : List Item) : PassesUnchanged items ↔ ∀ item ∈ items, Passable item := by
  constructor
  · intro h item hitem
    refine ⟨fun c hc => h.harmless c ?_, h.noPattern hitem⟩
    simp only [words, argument, List.mem_append, List.mem_flatMap] at hc ⊢
    refine Or.inl (Or.inr ⟨item, hitem, ?_⟩)
    rcases hc with hc | hc
    · exact Or.inl (Or.inl (Or.inr hc))
    · exact Or.inr hc
  · exact passes_of_passable

/-- A value with a blank. -/
def jobName : Item := (['n', 'a', 'm', 'e'], ['m', 'y', ' ', 'j', 'o', 'b'])

/-- The shell splits the value at the blank. -/
theorem jobName_split : runFio (fun _ => []) [jobName] =
      some ⟨[utf8 fio, utf8 ['-', '-', 'n', 'a', 'm', 'e', '=', 'm', 'y'], utf8 ['j', 'o', 'b']],
        [(1, .output, utf8 resultFile)]⟩ ∧
    ¬PassesUnchanged [jobName] := by
  have hrun : runFio (fun _ => []) [jobName] =
      some ⟨[utf8 fio, utf8 ['-', '-', 'n', 'a', 'm', 'e', '=', 'm', 'y'], utf8 ['j', 'o', 'b']],
        [(1, .output, utf8 resultFile)]⟩ := by decide
  refine ⟨hrun, fun h => ?_⟩
  have hsame := hrun.symm.trans (h fun _ => [])
  revert hsame
  decide

end LearnTogether.Fio
