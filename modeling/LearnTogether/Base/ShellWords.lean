import LearnTogether.Base.Shell

/-!
# The bytes of a shell command

The bytes of the words are bytes of the string, and the quoting bytes among them get lost (`kept_le`,
`kept_lt_of_quoting`); without quoting bytes no special byte gets into a word (`plain_of_unquoted`).  A word of bytes
that are not special is read as it stands (`read_solid`).  A pattern matches pathnames other than itself (`sample_ne`).
-/

namespace Shell

/-! ### Where the bytes of the words come from -/

def Token.bytes : Token → List UInt8
  | .word w => Shell.bytes w
  | .redirect _ _ => []

def Command.bytes (c : Command) : List UInt8 :=
  c.words.flatMap Shell.bytes ++ c.redirects.flatMap fun r => Shell.bytes r.target

namespace State

/-- The bytes of all words so far. -/
def kept (s : State) : List UInt8 := s.tokens.flatMap Token.bytes ++ bytes (s.word.getD [])

/-- With the backslash that may turn out to stand for itself. -/
def held (s : State) : List UInt8 := s.kept ++ if s.mode = .doubleEscape then [92] else []

variable {s s' : State} {b : UInt8}

@[simp] theorem kept_mode (m : Mode) : { s with mode := m }.kept = s.kept := rfl

@[simp] theorem kept_endWord : s.endWord.kept = s.kept := by
  unfold endWord kept
  cases hw : s.word with
  | none => simp [hw]
  | some w => simp [Token.bytes, bytes]

@[simp] theorem kept_append (ps : Word) : (s.append ps).kept = s.kept ++ bytes ps := by
  simp [append, kept, bytes]

@[simp] theorem kept_endLine : s.endLine.kept = s.kept := kept_endWord

private theorem kept_redirect (output : Bool) : (s.redirect output).kept.Sublist s.kept := by
  unfold redirect
  split
  · exact List.Sublist.append_left (List.nil_sublist _) _
  · have hk : { s.endWord with mode := .redirect (if output then 1 else 0) output }.kept = s.kept := kept_endWord
    exact hk ▸ List.Sublist.refl _

@[simp] theorem kept_redirectToken (m : Mode) (fd : Nat) (op : Op) :
    State.kept { s with mode := m, tokens := s.tokens ++ [.redirect fd op] } = s.kept := by
  simp [kept, Token.bytes]

private theorem held_of_mode (h : s.mode ≠ .doubleEscape) : s.held = s.kept := by
  simp [held, h]

private theorem ne_doubleEscape_of_unquoted (h : s.mode.unquoted = true) : s.mode ≠ .doubleEscape := by
  intro hm
  rw [hm] at h
  cases h

/-- What a byte outside of quotes does to the words: it gets into one only if it stands for itself. -/
structure Grows (s : State) (b : UInt8) (t : State) : Prop where
  mode : t.mode ≠ .doubleEscape
  unquoted : quoting b = false → t.mode.unquoted = true
  kept : t.kept.Sublist s.kept ∨ plain b = true ∧ t.kept = s.kept ++ [b]

private theorem grows_drop {t : State} (hm : t.mode.unquoted = true) (hk : t.kept = s.kept) : Grows s b t :=
  ⟨ne_doubleEscape_of_unquoted hm, fun _ => hm, Or.inl (hk ▸ List.Sublist.refl _)⟩

private theorem grows_append (hb : plain b = true) : Grows s b (s.append [⟨b, false⟩]) :=
  ⟨by simp [append], fun _ => rfl, Or.inr ⟨hb, by simp [bytes]⟩⟩

private theorem grows_quote {t : State} (hb : quoting b = true) (hm : t.mode ≠ .doubleEscape) (hk : t.kept = s.kept) :
    Grows s b t :=
  ⟨hm, fun hf => by simp [hb] at hf, Or.inl (hk ▸ List.Sublist.refl _)⟩

private theorem plainStep_grows (h : s.plainStep b = some s') (hm : s.mode = .plain) : Grows s b s' := by
  have hend : s.endWord.mode = .plain := by
    unfold endWord
    split <;> exact hm
  unfold plainStep at h
  cases hc : classify b with
  | blank =>
    simp only [hc] at h
    cases h
    exact grows_drop (by rw [hend]; rfl) kept_endWord
  | newline =>
    simp only [hc] at h
    cases h
    exact grows_drop rfl kept_endLine
  | hash =>
    simp only [hc] at h
    split at h <;> cases h
    · exact grows_drop rfl rfl
    · exact grows_append (by simp [plain, hc])
  | expansion | control =>
    simp only [hc] at h
    split at h <;> cases h
  | semicolon =>
    simp only [hc] at h
    split at h
    · cases h
    · split at h <;> cases h
      exact grows_drop rfl kept_endLine
  | tilde =>
    simp only [hc] at h
    split at h
    · cases h
    · split at h <;> cases h
      exact grows_append (by simp [plain, hc])
  | other =>
    simp only [hc] at h
    split at h <;> cases h
    exact grows_append (by simp [plain, hc])
  | backslash | singleQuote | doubleQuote =>
    simp only [hc] at h
    split at h <;> cases h
    exact grows_quote (by simp [quoting, hc]) (by simp) (by simp [kept])
  | less | greater =>
    simp only [hc] at h
    split at h <;> cases h
    have hu : ∀ output, (s.redirect output).mode.unquoted = true := by
      intro output
      unfold redirect
      split <;> rfl
    exact ⟨ne_doubleEscape_of_unquoted (hu _), fun _ => hu _, Or.inl (kept_redirect _)⟩

/-- The same in every mode outside of quotes. -/
private theorem step_grows (hm : s.mode.unquoted = true) (h : s.step b = some s') : Grows s b s' := by
  unfold step at h
  cases hmode : s.mode with
  | plain =>
    simp only [hmode] at h
    exact plainStep_grows h hmode
  | comment =>
    simp only [hmode] at h
    split at h <;> cases h
    · exact grows_drop rfl kept_endLine
    · exact grows_drop hm rfl
  | redirect fd output =>
    simp only [hmode] at h
    split at h
    · cases h
      exact grows_drop rfl (kept_redirectToken ..)
    · split at h
      · cases h
      · -- the byte after `<` or `>` belongs to what follows
        obtain ⟨hd, hu, hk⟩ := plainStep_grows h rfl
        rw [kept_redirectToken] at hk
        exact ⟨hd, hu, hk⟩
  | escape | single | double | doubleEscape =>
    rw [hmode] at hm
    cases hm

private theorem classify_backslash (h : classify b = .backslash) : b = 92 := by
  have hall : ∀ n < 256, classify (UInt8.ofNat n) = .backslash → UInt8.ofNat n = 92 := by decide +kernel
  have hb := hall b.toNat b.toNat_lt
  rw [UInt8.ofNat_toNat] at hb
  exact hb h

private theorem held_append {m : Mode} (hm : m ≠ .doubleEscape) (ps : Word) :
    State.held { s.append ps with mode := m } = s.kept ++ bytes ps := by
  rw [held_of_mode hm, kept_mode, kept_append]

/-- Read from left to right, the words are made of bytes of the string. -/
private theorem step_held (h : s.step b = some s') : s'.held.Sublist (s.held ++ [b]) := by
  have hsame : ∀ {t : State}, t.held = s.kept → t.held.Sublist (s.held ++ [b]) := by
    intro t ht
    rw [ht, held, List.append_assoc]
    exact List.sublist_append_left ..
  have happend : ∀ {t : State}, t.held = s.kept ++ [b] → t.held.Sublist (s.held ++ [b]) := by
    intro t ht
    rw [ht, held, List.append_assoc]
    exact List.Sublist.append_left (List.sublist_append_right ..) _
  have hunquoted : s.mode.unquoted = true → s'.held.Sublist (s.held ++ [b]) := by
    intro hm
    obtain ⟨hd, -, hk⟩ := step_grows hm h
    rw [held_of_mode hd, held_of_mode (ne_doubleEscape_of_unquoted hm)]
    rcases hk with hk | ⟨-, hk⟩
    · exact hk.trans (List.sublist_append_left ..)
    · exact hk ▸ List.Sublist.refl _
  cases hm : s.mode with
  | plain | comment | redirect => exact hunquoted (by rw [hm]; rfl)
  | escape =>
    simp only [step, hm] at h
    split at h <;> cases h
    · exact hsame (held_of_mode (by simp))
    · exact happend (held_append (m := .plain) (by simp) _)
  | single =>
    simp only [step, hm] at h
    split at h <;> cases h
    · exact hsame (held_of_mode (by simp))
    · exact happend (held_append (by simp) _)
  | double =>
    simp only [step, hm] at h
    split at h
    · cases h
      exact hsame (held_of_mode (by simp))
    · -- the backslash is held back until the next byte is known
      rename_i hc
      cases h
      rw [classify_backslash hc]
      simp [held, hm]
    · cases h
    · cases h
      exact happend (held_append (by simp) _)
  | doubleEscape =>
    simp only [step, hm] at h
    split at h
    · cases h
      exact happend (held_append (by simp) _)
    · cases h
      exact happend (held_append (by simp) _)
    · cases h
      exact happend (held_append (by simp) _)
    · cases h
      exact hsame (held_of_mode (by simp))
    · -- any other byte keeps the backslash before it
      cases h
      rw [held_append (by simp)]
      simp [held, hm, bytes]

private theorem steps_held {bs : List UInt8} (h : s.steps bs = some s') : s'.held.Sublist (s.held ++ bs) := by
  refine Exec.exec_induction_trace (I := fun bs t => t.held.Sublist (s.held ++ bs)) (by simp) ?_ h
  intro bs t b u _ hb ht
  rw [← List.append_assoc]
  exact (step_held hb).trans (ht.append_right [b])

/-- Outside of quotes, a byte that does not quote gets into a word only if it stands for itself. -/
private theorem step_unquoted (hm : s.mode.unquoted = true) (hq : quoting b = false) (h : s.step b = some s') :
    s'.mode.unquoted = true ∧ ∀ x ∈ s'.kept, x ∈ s.kept ∨ plain x = true := by
  obtain ⟨-, hu, hk⟩ := step_grows hm h
  refine ⟨hu hq, fun x hx => ?_⟩
  rcases hk with hk | ⟨hp, hk⟩
  · exact Or.inl (hk.mem hx)
  · rw [hk, List.mem_append, List.mem_singleton] at hx
    rcases hx with hx | rfl
    · exact Or.inl hx
    · exact Or.inr hp

/-- Outside of quotes, a quoting byte gets lost. -/
private theorem step_quoting (hm : s.mode.unquoted = true) (hq : quoting b = true) (h : s.step b = some s') :
    s'.held.Sublist s.held := by
  have hp : plain b = false := by
    unfold quoting at hq
    unfold plain
    cases hc : classify b <;> rw [hc] at hq <;> first | rfl | cases hq
  obtain ⟨hd, -, hk⟩ := step_grows hm h
  rw [held_of_mode hd, held_of_mode (ne_doubleEscape_of_unquoted hm)]
  rcases hk with hk | ⟨hb, -⟩
  · exact hk
  · rw [hp] at hb
    cases hb

/-- If there is a quoting byte, one of them gets lost. -/
private theorem steps_quoting {bs : List UInt8} (hm : s.mode.unquoted = true) (h : s.steps bs = some s')
    (hq : ∃ b ∈ bs, quoting b = true) : s'.held.countP quoting < s.held.countP quoting + bs.countP quoting := by
  induction bs generalizing s with
  | nil =>
    obtain ⟨b, hb, -⟩ := hq
    cases hb
  | cons b bs ih =>
    obtain ⟨t, ht, h⟩ := Exec.exec_cons_some.1 h
    rw [List.countP_cons]
    cases hb : quoting b with
    | true =>
      have h₁ := (step_quoting hm hb ht).countP_le (p := quoting)
      have h₂ := (steps_held h).countP_le (p := quoting)
      rw [List.countP_append] at h₂
      simp only [if_true]
      omega
    | false =>
      have h₁ := (step_held ht).countP_le (p := quoting)
      rw [List.countP_append, List.countP_singleton, hb] at h₁
      have hrest : ∃ b ∈ bs, quoting b = true := by
        obtain ⟨c, hc, hcq⟩ := hq
        rcases List.mem_cons.1 hc with rfl | hc
        · rw [hb] at hcq
          cases hcq
        · exact ⟨c, hc, hcq⟩
      have h₂ := ih (step_unquoted hm hb ht).1 h hrest
      simp only [Bool.false_eq_true, if_false] at h₁ ⊢
      omega

/-- Without quoting bytes, the words are made of bytes that stand for themselves. -/
private theorem steps_unquoted {bs : List UInt8} (hm : s.mode.unquoted = true) (h : s.steps bs = some s')
    (hq : ∀ b ∈ bs, quoting b = false) : ∀ x ∈ s'.kept, x ∈ s.kept ∨ plain x = true := by
  induction bs generalizing s with
  | nil =>
    cases h
    exact fun x hx => Or.inl hx
  | cons b bs ih =>
    obtain ⟨t, ht, h⟩ := Exec.exec_cons_some.1 h
    obtain ⟨hmt, hkt⟩ := step_unquoted hm (hq b (List.mem_cons_self ..)) ht
    intro x hx
    rcases ih hmt h (fun c hc => hq c (List.mem_cons_of_mem _ hc)) x hx with hx | hx
    · exact hkt x hx
    · exact Or.inr hx

private theorem finish_kept {tokens : List Token} (h : s.finish = some tokens) :
    tokens.flatMap Token.bytes = s.kept := by
  have hk : s.endWord.tokens.flatMap Token.bytes = s.kept := by
    rw [← kept_endWord]
    unfold endWord kept
    cases hw : s.word <;> simp [bytes, hw]
  unfold finish at h
  split at h <;> cases h <;> exact hk

end State

/-- The words and the targets of the redirections are the words of the line. -/
private theorem parse_bytes {ts : List Token} {c : Command} (h : parse ts = some c) :
    c.bytes.Perm (ts.flatMap Token.bytes) := by
  induction ts using parse.induct generalizing c with
  | case1 =>
    cases h
    exact List.Perm.refl _
  | case2 w ts ih =>
    obtain ⟨d, hd, rfl⟩ := Option.map_eq_some_iff.1 h
    have hb : Command.bytes { d with words := w :: d.words } = Shell.bytes w ++ d.bytes := by simp [Command.bytes]
    rw [hb]
    exact (ih hd).append_left _
  | case3 fd op w ts ih =>
    obtain ⟨d, hd, rfl⟩ := Option.map_eq_some_iff.1 h
    have hb : (Command.bytes { d with redirects := ⟨fd, op, w⟩ :: d.redirects }).Perm (Shell.bytes w ++ d.bytes) := by
      simp only [Command.bytes, List.flatMap_cons]
      exact List.perm_append_comm_assoc ..
    exact hb.trans ((ih hd).append_left _)
  | case4 fd op ts hno =>
    rw [parse] at h
    · cases h
    · exact hno

/-! ### What is read -/

private theorem read_steps {line : List UInt8} {c : Command} (h : read line = some c) :
    ∃ s, State.steps {} line = some s ∧ c.bytes.Perm s.kept := by
  simp only [read, Option.bind_eq_bind, Option.bind_eq_some_iff] at h
  obtain ⟨s, hs, tokens, ht, hp⟩ := h
  refine ⟨s, hs, ?_⟩
  rw [← State.finish_kept ht]
  exact parse_bytes hp

private theorem kept_sublist_held (s : State) : s.kept.Sublist s.held := List.sublist_append_left ..

/-- The bytes of a command are bytes of the line. -/
theorem kept_le {line : List UInt8} {c : Command} (h : read line = some c) (p : UInt8 → Bool) :
    c.bytes.countP p ≤ line.countP p := by
  obtain ⟨s, hs, hp⟩ := read_steps h
  have h₁ := (kept_sublist_held s).countP_le (p := p)
  have h₂ := (State.steps_held hs).countP_le (p := p)
  have h₀ : (State.held {}).countP p = 0 := rfl
  rw [hp.countP_eq]
  rw [List.countP_append] at h₂
  omega

/-- If the line has quoting bytes, the command has fewer of them. -/
theorem kept_lt_of_quoting {line : List UInt8} {c : Command} (h : read line = some c)
    (hq : ∃ b ∈ line, quoting b = true) : c.bytes.countP quoting < line.countP quoting := by
  obtain ⟨s, hs, hp⟩ := read_steps h
  have h₁ := (kept_sublist_held s).countP_le (p := quoting)
  have h₂ := State.steps_quoting rfl hs hq
  have h₀ : (State.held {}).countP quoting = 0 := rfl
  rw [hp.countP_eq]
  omega

/-- If the line has no quoting bytes, the command has only bytes that stand for themselves. -/
theorem plain_of_unquoted {line : List UInt8} {c : Command} (h : read line = some c)
    (hq : ∀ b ∈ line, quoting b = false) : ∀ b ∈ c.bytes, plain b = true := by
  obtain ⟨s, hs, hp⟩ := read_steps h
  intro b hb
  rcases State.steps_unquoted rfl hs hq b (hp.mem_iff.1 hb) with hb | hb
  · cases hb
  · exact hb

/-! ### Pathname expansion -/

theorem expand_of_noPattern {w : Word} (h : isPattern w = false) (glob : Word → List (List UInt8)) :
    expand glob w = [bytes w] := by
  simp [expand, h]

theorem flatMap_expand {glob : Word → List (List UInt8)} {f : Word → List UInt8} {ws : List Word}
    (h : ∀ w ∈ ws, expand glob w = [f w]) : ws.flatMap (expand glob) = ws.map f := by
  induction ws with
  | nil => rfl
  | cons w ws ih =>
    obtain ⟨hw, hws⟩ := List.forall_mem_cons.1 h
    rw [List.flatMap_cons, List.map_cons, hw, ih hws]
    rfl

/-- A byte that the bracket expression behind the `[` stands for, if it has no ranges and no classes. -/
def member : Word → UInt8
  | [] => 0
  | p :: w =>
    if p = ⟨33, false⟩ then
      (((List.range 256).map UInt8.ofNat).find? fun b => b ≠ 0 ∧ b ≠ 47 ∧ b ∉ bytes w).getD 0
    else p.byte

/-- What is behind the bracket expression. -/
def afterBracket (w : Word) : Word :=
  (((if w.head? = some ⟨33, false⟩ then w.tail else w).tail).dropWhile fun q => decide (q ≠ ⟨93, false⟩)).tail

private theorem length_afterBracket (w : Word) : (afterBracket w).length ≤ w.length - 1 := by
  have hmembers : (if w.head? = some ⟨33, false⟩ then w.tail else w).length ≤ w.length := by
    split_ifs
    · exact (List.tail_sublist w).length_le
    · exact Nat.le_refl _
  have hdrop := (List.dropWhile_sublist (l := (if w.head? = some ⟨33, false⟩ then w.tail else w).tail)
    fun q => decide (q ≠ ⟨93, false⟩)).length_le
  rw [List.length_tail] at hdrop
  unfold afterBracket
  rw [List.length_tail]
  omega

/-- A pathname that the pattern matches, with `x` for `*` and `?`. -/
def sample : Word → List UInt8
  | [] => []
  | p :: w =>
    if p = ⟨42, false⟩ ∨ p = ⟨63, false⟩ then 120 :: sample w
    else if p = ⟨91, false⟩ ∧ closesBracket w then
      have : (afterBracket w).length < w.length + 1 := by
        have hle := length_afterBracket w
        omega
      member w :: sample (afterBracket w)
    else p.byte :: sample w
termination_by w => w.length

private theorem length_sample (w : Word) : (sample w).length ≤ w.length := by
  induction w using sample.induct with
  | case1 => simp [sample]
  | case2 p w hp ih =>
    rw [sample, if_pos hp]
    exact Nat.succ_le_succ ih
  | case3 p w hp hb _ ih =>
    rw [sample, if_neg hp, if_pos hb]
    have hle := length_afterBracket w
    simp only [List.length_cons]
    omega
  | case4 p w hp hb ih =>
    rw [sample, if_neg hp, if_neg hb]
    exact Nat.succ_le_succ ih

/-- The pathname is not the pattern itself: it has another byte for the first `*` or `?`, or it is shorter for a
bracket expression. -/
theorem sample_ne {w : Word} (h : isPattern w = true) : sample w ≠ bytes w := by
  induction w using sample.induct with
  | case1 => cases h
  | case2 p w hp ih =>
    rw [sample, if_pos hp]
    intro heq
    have hbyte : (120 : UInt8) = p.byte := (List.cons.inj heq).1
    rcases hp with rfl | rfl <;> exact absurd hbyte (by decide)
  | case3 p w hp hb _ ih =>
    rw [sample, if_neg hp, if_pos hb]
    intro heq
    have hlen := congrArg List.length heq
    have hsample := length_sample (afterBracket w)
    have hle := length_afterBracket w
    have hw : w ≠ [] := by
      rintro rfl
      cases hb.2
    have hpos := List.length_pos_iff.2 hw
    simp only [bytes, List.length_cons, List.length_map] at hlen
    omega
  | case4 p w hp hb ih =>
    rw [sample, if_neg hp, if_neg hb]
    have hw : isPattern w = true := by
      simpa [isPattern, not_or.1 hp, hb] using h
    exact fun heq => ih hw (List.cons.inj heq).2

/-! ### Words that stand for themselves -/

/-- The word that consists of unquoted bytes. -/
def literal (bs : List UInt8) : Word := bs.map fun b => ⟨b, false⟩

@[simp] theorem bytes_literal (bs : List UInt8) : bytes (literal bs) = bs := by
  simp [bytes, literal, Function.comp_def]

/-- A word of bytes that stand for themselves, at its start as well. -/
structure Solid (bs : List UInt8) : Prop where
  starts : ∃ b rest, bs = b :: rest ∧ classify b = .other
  plain : ∀ b ∈ bs, plain b = true

namespace State

variable {t : List Token} {w : Word} {bs : List UInt8}

private theorem steps_trans {s t u : State} {as bs : List UInt8} (h₁ : s.steps as = some t) (h₂ : t.steps bs = some u) :
    s.steps (as ++ bs) = some u := by
  rw [steps] at h₁ h₂ ⊢
  rw [Exec.exec_append, h₁]
  exact h₂

private theorem steps_cons {s t u : State} {b : UInt8} {bs : List UInt8} (h₁ : s.step b = some t)
    (h₂ : t.steps bs = some u) : s.steps (b :: bs) = some u := Exec.exec_cons_some.2 ⟨t, h₁, h₂⟩

/-- Inside a word, bytes that stand for themselves are added to the word. -/
private theorem steps_plain (hbs : ∀ b ∈ bs, plain b = true) :
    steps { tokens := t, word := some w } bs = some { tokens := t, word := some (w ++ literal bs) } := by
  induction bs generalizing w with
  | nil => simp [steps, literal]
  | cons b bs ih =>
    have hb := hbs b (List.mem_cons_self ..)
    have hstep : step { tokens := t, word := some w } b = some { tokens := t, word := some (w ++ [⟨b, false⟩]) } := by
      unfold Shell.plain at hb
      cases hc : classify b with
      | hash | tilde | other => simp [step, plainStep, hc, append]
      | _ => simp [hc] at hb
    have ih := ih (w := w ++ [⟨b, false⟩]) fun c hc => hbs c (List.mem_cons_of_mem _ hc)
    rw [List.append_assoc] at ih
    exact steps_cons hstep ih

/-- A solid word is read as it stands. -/
private theorem steps_solid (hbs : Solid bs) :
    steps { tokens := t } bs = some { tokens := t, word := some (literal bs) } := by
  obtain ⟨⟨b, rest, rfl, hb⟩, hp⟩ := hbs
  have hstep : step { tokens := t } b = some { tokens := t, word := some [⟨b, false⟩] } := by
    simp [step, plainStep, hb, append]
  exact steps_cons hstep (steps_plain fun c hc => hp c (List.mem_cons_of_mem _ hc))

/-- Solid words with blanks between them are read one by one. -/
private theorem steps_words {args : List (List UInt8)} (hargs : ∀ bs ∈ args, Solid bs) :
    steps { tokens := t, word := some w } (args.flatMap (32 :: ·) ++ [32]) =
      some { tokens := t ++ (w :: args.map literal).map Token.word } := by
  induction args generalizing t w with
  | nil => rfl
  | cons bs args ih =>
    have hblank : step { tokens := t, word := some w } 32 = some { tokens := t ++ [.word w] } := rfl
    have hbs := steps_solid (t := t ++ [.word w]) (hargs bs (List.mem_cons_self ..))
    have ih := ih (t := t ++ [.word w]) (w := literal bs) fun c hc => hargs c (List.mem_cons_of_mem _ hc)
    rw [List.append_assoc] at ih
    rw [List.flatMap_cons, List.append_assoc]
    exact steps_cons hblank (steps_trans hbs ih)

end State

private theorem parse_words (ws : List Word) (fd : Nat) (op : Op) (target : Word) :
    parse (ws.map Token.word ++ [.redirect fd op, .word target]) =
      some { words := ws, redirects := [⟨fd, op, target⟩] } := by
  induction ws with
  | nil => rfl
  | cons w ws ih => simp [parse, ih]

/-- Solid words whose output is redirected to a solid word. -/
theorem read_solid {name target : List UInt8} {args : List (List UInt8)} (hn : Solid name)
    (hargs : ∀ bs ∈ args, Solid bs) (ht : Solid target) :
    read (name ++ (args.flatMap (32 :: ·) ++ [32]) ++ ([62, 32] ++ target)) =
      some { words := (name :: args).map literal, redirects := [⟨1, .output, literal target⟩] } := by
  have hname := State.steps_solid (t := []) hn
  have hwords := State.steps_words (t := []) (w := literal name) hargs
  have hop : State.steps { tokens := ((name :: args).map literal).map Token.word } [62, 32] =
      some { tokens := ((name :: args).map literal).map Token.word ++ [.redirect 1 .output] } := rfl
  have htarget := State.steps_solid (t := ((name :: args).map literal).map Token.word ++ [.redirect 1 .output]) ht
  have hsteps := State.steps_trans (State.steps_trans hname hwords) (State.steps_trans hop htarget)
  have hparse := parse_words ((name :: args).map literal) 1 .output (literal target)
  unfold read
  rw [hsteps]
  simpa [State.finish, State.endWord] using hparse

/-- The line `a 'b c' >d`: the quotes get lost, and the blank between them does not end the word. -/
example : (read [97, 32, 39, 98, 32, 99, 39, 32, 62, 100]).map (fun c => (c.words.map bytes, c.redirects)) =
    some ([[97], [98, 32, 99]], [⟨1, .output, literal [100]⟩]) := by decide

end Shell
