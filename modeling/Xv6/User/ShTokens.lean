/-
  The shell's parser works on a sequence of tokens.

  `lex` cuts a text into its tokens, and `Toks.parseline` and its companions
  are the parser as it would be written over them.  The functions of `sh.c`
  scan the text again and again from a moving position; they see exactly the
  tokens of what is left of it (`gettoken_lex`, `peek_lex`), so that both
  parsers agree (`sim_parse`).
-/
import Mathlib.Data.List.DropRight
import Xv6.Lib.Fallible
import Xv6.User.Sh

namespace Xv6

namespace Sh

/-- The tokens of a command line. -/
inductive Tok where
  | bar | lpar | rpar | semi | amp | lt | gt | gtgt
  | word (w : Text)
  deriving DecidableEq

/-- The tokens of one character. -/
def Tok.ofChar (c : UInt8) : Option Tok :=
  if c = chr '|' then some bar
  else if c = chr '(' then some lpar
  else if c = chr ')' then some rpar
  else if c = chr ';' then some semi
  else if c = chr '&' then some amp
  else if c = chr '<' then some lt
  else none

/-- The token that starts with `c`, and the text after it. -/
def token (c : UInt8) (r : Text) : Tok × Text :=
  match Tok.ofChar c with
  | some k => (k, r)
  | none =>
    if c = chr '>' then
      if r.head? = some (chr '>') then (.gtgt, r.tail) else (.gt, r)
    else (.word (c :: r.takeWhile isWord), r.dropWhile isWord)

/-- The first token of a text, and what follows it. -/
def next (s : Text) : Option (Tok × Text) :=
  match s.dropWhile (strchr whitespace) with
  | [] => none
  | c :: r => some (token c r)

theorem token_length (c : UInt8) (r : Text) : (token c r).2.length ≤ r.length := by
  unfold token
  split
  · exact le_rfl
  · split_ifs
    · simp
    · exact le_rfl
    · exact (List.dropWhile_suffix isWord).length_le

variable {k : Tok} {t : Text}

theorem next_length {s r : Text} (h : next s = some (k, r)) : r.length < s.length := by
  unfold next at h
  have hle := (List.dropWhile_suffix (strchr whitespace) (l := s)).length_le
  split at h
  · cases h
  · rename_i c u hu
    obtain rfl : (token c u).2 = r := congrArg Prod.snd (Option.some.inj h)
    rw [hu, List.length_cons] at hle
    have := token_length c u
    omega

/-- The tokens of a text. -/
def lex (s : Text) : List Tok :=
  match h : next s with
  | none => []
  | some (k, r) =>
    have := next_length h
    k :: lex r
termination_by s.length

theorem lex_eq (s : Text) : lex s = match next s with
    | none => []
    | some (k, r) => k :: lex r := by
  rw [lex]
  split <;> simp_all

/-! ## Scanning -/

section
variable {t : Text} {s e : ℕ}

/-- The text of a span. -/
def Text.span (t : Text) (w : Span) : Text := (t.drop w.1).take (w.2 - w.1)

theorem drop_eq_cons (h : s < t.length) : t.drop s = t.at s :: t.drop (s + 1) := by
  rw [List.drop_eq_getElem_cons h, Text.at, List.getD_eq_getElem?_getD, List.getElem?_eq_getElem h]
  rfl

/-- A scanning loop stops at the first character that does not pass the test. -/
theorem skip_spec (p : UInt8 → Bool) : ∀ n s, n = t.length - s →
    s ≤ skip p t n s ∧ skip p t n s ≤ max s t.length ∧
      (∀ i, s ≤ i → i < skip p t n s → p (t.at i)) ∧
      (skip p t n s < t.length → ¬ p (t.at (skip p t n s)))
  | 0, s, hn => by
    refine ⟨le_rfl, le_max_left .., fun i h1 h2 => ?_, fun h => ?_⟩
    · exact absurd h1 (not_le.2 h2)
    · rw [skip] at h
      omega
  | n + 1, s, hn => by
    rw [skip]
    split_ifs with hp
    · obtain ⟨hle, hmax, hall, hend⟩ := skip_spec p n (s + 1) (by omega)
      refine ⟨by omega, by omega, fun i h1 h2 => ?_, hend⟩
      rcases Nat.eq_or_lt_of_le h1 with rfl | h1
      · exact hp
      · exact hall i h1 h2
    · exact ⟨le_rfl, le_max_left .., fun i h1 h2 => absurd h1 (not_le.2 h2), fun _ => hp⟩

/-- The characters passed by a scanning loop, and the others. -/
theorem drop_takeWhile (p : UInt8 → Bool) {e : ℕ} : ∀ k s, s + k = e → e ≤ t.length →
    (∀ i, s ≤ i → i < e → p (t.at i)) → (e < t.length → ¬ p (t.at e)) →
    (t.drop s).dropWhile p = t.drop e ∧ (t.drop s).takeWhile p = (t.drop s).take k
  | 0, s, hk, hle, hall, hend => by
    obtain rfl : s = e := by omega
    rcases Nat.lt_or_ge s t.length with hlt | hge
    · rw [drop_eq_cons hlt, List.dropWhile_cons_of_neg (hend hlt),
        List.takeWhile_cons_of_neg (hend hlt)]
      simp
    · simp [List.drop_eq_nil_of_le hge]
  | k + 1, s, hk, hle, hall, hend => by
    obtain ⟨h1, h2⟩ := drop_takeWhile p k (s + 1) (by omega) hle
      (fun i h1 h2 => hall i (by omega) h2) hend
    have hp := hall s le_rfl (by omega)
    rw [drop_eq_cons (by omega), List.dropWhile_cons_of_pos hp, List.takeWhile_cons_of_pos hp, h1, h2,
      List.take_succ_cons]
    exact ⟨rfl, rfl⟩

/-- What a scanning loop leaves, and what it passes. -/
theorem drop_skip (p : UInt8 → Bool) (hs : s ≤ t.length) :
    t.drop (skip p t (t.length - s) s) = (t.drop s).dropWhile p ∧
      t.span (s, skip p t (t.length - s) s) = (t.drop s).takeWhile p := by
  obtain ⟨hle, hmax, hall, hend⟩ := skip_spec (t := t) p _ s rfl
  rw [max_eq_right hs] at hmax
  obtain ⟨h1, h2⟩ := drop_takeWhile p _ s (Nat.add_sub_cancel' hle) hmax hall hend
  exact ⟨h1.symm, h2.symm⟩

theorem drop_skipws : t.drop (skipws t s) = (t.drop s).dropWhile (strchr whitespace) := by
  rcases Nat.le_total s t.length with h | h
  · exact (drop_skip _ h).1
  · rw [skipws, Nat.sub_eq_zero_of_le h, skip, List.drop_eq_nil_of_le h]
    rfl

theorem skipws_le (h : s ≤ t.length) : skipws t s ≤ t.length := by
  have := (skip_spec (t := t) (strchr whitespace) _ s rfl).2.1
  rwa [max_eq_right h] at this

/-- White space before a token does not matter. -/
theorem lex_skipws : lex (t.drop (skipws t s)) = lex (t.drop s) := by
  rw [lex_eq, lex_eq (t.drop s), next, next, drop_skipws, List.dropWhile_idempotent]

/-- What `gettoken` returns for a token. -/
def Tok.code : Tok → UInt8
  | bar => chr '|'
  | lpar => chr '('
  | rpar => chr ')'
  | semi => chr ';'
  | amp => chr '&'
  | lt => chr '<'
  | gt => chr '>'
  | gtgt => chr '+'
  | word _ => chr 'a'

/-- The tokens of one character are returned as this character. -/
theorem Tok.ofChar_spec (c : UInt8) :
    (∃ k, Tok.ofChar c = some k ∧ k.code = c ∧ (∀ w, k ≠ .word w) ∧
      (c = chr '|' ∨ c = chr '(' ∨ c = chr ')' ∨ c = chr ';' ∨ c = chr '&' ∨ c = chr '<')) ∨
    Tok.ofChar c = none ∧
      ¬ (c = chr '|' ∨ c = chr '(' ∨ c = chr ')' ∨ c = chr ';' ∨ c = chr '&' ∨ c = chr '<') := by
  unfold Tok.ofChar
  split_ifs with h1 h2 h3 h4 h5 h6
  all_goals simp_all [Tok.code]

/-- A word of the text: it goes on while there are word characters. -/
def IsWord (t : Text) (w : Span) : Prop :=
  w.1 ≤ w.2 ∧ w.2 ≤ t.length ∧ (∀ i, w.1 ≤ i → i < w.2 → isWord (t.at i)) ∧
    (w.2 < t.length → ¬ isWord (t.at w.2))

/-- The character where scanning stops. -/
theorem at_skipws : t.length ≤ skipws t s ∧ next (t.drop s) = none ∨
    skipws t s < t.length ∧ strchr whitespace (t.at (skipws t s)) = false ∧
      next (t.drop s) = some (token (t.at (skipws t s)) (t.drop (skipws t s + 1))) := by
  have hhead := List.head?_dropWhile_not (strchr whitespace) (t.drop s)
  rw [next, ← drop_skipws]
  rw [← drop_skipws] at hhead
  rcases Nat.lt_or_ge (skipws t s) t.length with h | h
  · rw [drop_eq_cons h] at hhead ⊢
    exact .inr ⟨h, hhead, rfl⟩
  · rw [List.drop_eq_nil_of_le h]
    exact .inl ⟨h, rfl⟩

theorem at_ne_zero (h0 : 0 ∉ t) (h : s < t.length) : t.at s ≠ 0 := by
  intro heq
  refine h0 (heq ▸ ?_)
  rw [Text.at, List.getD_eq_getElem?_getD, List.getElem?_eq_getElem h]
  exact List.getElem_mem h

/-- `scan` finds the end of the token. -/
theorem scan_token (h0 : 0 ∉ t) (h : s < t.length) (hws : strchr whitespace (t.at s) = false) :
    (scan t s).1 = (token (t.at s) (t.drop (s + 1))).1.code ∧
      t.drop (scan t s).2 = (token (t.at s) (t.drop (s + 1))).2 ∧
      ∀ w, (token (t.at s) (t.drop (s + 1))).1 = .word w →
        IsWord t (s, (scan t s).2) ∧ t.span (s, (scan t s).2) = w := by
  unfold scan token
  dsimp only
  rw [if_neg (at_ne_zero h0 h)]
  rcases Tok.ofChar_spec (t.at s) with ⟨k, hk, hcode, hword, hc⟩ | ⟨hk, hc⟩
  · rw [hk, if_pos hc]
    exact ⟨hcode.symm, rfl, fun w hw => absurd hw (hword w)⟩
  rw [hk, if_neg hc]
  by_cases hgt : t.at s = chr '>'
  · have hhead : (t.drop (s + 1)).head? = some (chr '>') ↔ t.at (s + 1) = chr '>' := by
      rcases Nat.lt_or_ge (s + 1) t.length with hlt | hge
      · rw [drop_eq_cons hlt, List.head?_cons, Option.some.injEq]
      · rw [List.drop_eq_nil_of_le hge, Text.at, List.getD_eq_getElem?_getD, List.getElem?_eq_none hge]
        simp [chr]
    simp only [if_pos hgt, hhead]
    split_ifs
    · simp [Tok.code]
    · simp [Tok.code, hgt]
  · simp only [if_neg hgt]
    obtain ⟨hle, hmax, hall, hend⟩ := skip_spec (t := t) isWord _ s rfl
    obtain ⟨hdrop, hspan⟩ := drop_skip (t := t) isWord h.le
    rw [max_eq_right h.le] at hmax
    have hfirst : isWord (t.at s) = true := by
      simp only [not_or] at hc
      rw [isWord, hws]
      simp [strchr, symbols, hc, hgt]
    refine ⟨rfl, ?_, fun w hw => ⟨⟨hle, hmax, hall, hend⟩, ?_⟩⟩
    · rw [hdrop, drop_eq_cons h, List.dropWhile_cons_of_pos hfirst]
    · rw [hspan, drop_eq_cons h, List.takeWhile_cons_of_pos hfirst]
      exact Tok.word.inj hw

/-- **`gettoken` returns the next token** of what is left of the text, and moves behind it. -/
theorem gettoken_lex (h0 : 0 ∉ t) (ps : ℕ) :
    lex (t.drop ps) = [] ∧ (gettoken t ps).ret = 0 ∧ lex (t.drop (gettoken t ps).ps) = [] ∨
    ∃ k, lex (t.drop ps) = k :: lex (t.drop (gettoken t ps).ps) ∧ (gettoken t ps).ret = k.code ∧
      ∀ w, k = .word w → IsWord t ((gettoken t ps).q, (gettoken t ps).eq) ∧
        t.span ((gettoken t ps).q, (gettoken t ps).eq) = w := by
  rcases at_skipws (t := t) (s := ps) with ⟨hge, hn⟩ | ⟨hlt, hws, hn⟩
  · have hat : t.at (skipws t ps) = 0 := by
      rw [Text.at, List.getD_eq_getElem?_getD, List.getElem?_eq_none hge]
      rfl
    have hl : lex (t.drop ps) = [] := by rw [lex_eq, hn]
    refine .inl ⟨hl, ?_, ?_⟩
    · simp [gettoken, scan, hat]
    · simp only [gettoken, scan, hat, if_pos, lex_skipws]
      exact hl
  · obtain ⟨hret, hdrop, hword⟩ := scan_token h0 hlt hws
    refine .inr ⟨_, ?_, hret, hword⟩
    rw [lex_eq, hn]
    simp only [gettoken, lex_skipws, hdrop]

theorem scan_le (h : s ≤ t.length) : (scan t s).2 ≤ t.length := by
  have hlt : ∀ {i}, t.at i ≠ 0 → i < t.length := fun {i} hi => by
    by_contra hge
    rw [Text.at, List.getD_eq_getElem?_getD, List.getElem?_eq_none (not_lt.1 hge)] at hi
    exact hi rfl
  unfold scan
  dsimp only
  split_ifs with h1 h2 h3 h4
  · exact h
  · exact hlt h1
  · exact hlt (h4 ▸ by decide)
  · exact hlt h1
  · have := (skip_spec (t := t) isWord _ s rfl).2.1
    rwa [max_eq_right h] at this

theorem gettoken_le {ps : ℕ} (h : ps ≤ t.length) : (gettoken t ps).ps ≤ t.length :=
  skipws_le (scan_le (skipws_le h))

/-- The first character of a token, where it is a symbol. -/
def Tok.first : Tok → UInt8
  | gtgt => chr '>'
  | k => k.code

/-- A token starts with its first character, or is a word. -/
theorem first_token (c : UInt8) (r : Text) : (token c r).1.first = c ∨
    (token c r).1.first = chr 'a' ∧ c ∉ symbols := by
  unfold token
  rcases Tok.ofChar_spec c with ⟨k, hk, hcode, hword, hc⟩ | ⟨hk, hc⟩
  · rw [hk]
    refine .inl ?_
    cases k with
    | gtgt =>
      obtain rfl : chr '+' = c := hcode
      simp [chr] at hc
    | _ => exact hcode
  · rw [hk]
    dsimp only
    split_ifs with hgt hhead
    · exact .inl hgt.symm
    · exact .inl hgt.symm
    · refine .inr ⟨rfl, ?_⟩
      simp only [not_or] at hc
      simp [symbols, hc, hgt]

/-- **`peek` looks at the next token**, and moves to it. -/
theorem peek_lex (h0 : 0 ∉ t) {ps : ℕ} (hle : ps ≤ t.length) {toks : List UInt8}
    (hs : ∀ c ∈ toks, c ∈ symbols) :
    (peek t ps toks).1 ≤ t.length ∧ lex (t.drop (peek t ps toks).1) = lex (t.drop ps) ∧
      ((peek t ps toks).2 = true ↔ ∃ k ∈ (lex (t.drop ps)).head?, k.first ∈ toks) := by
  refine ⟨skipws_le hle, lex_skipws, ?_⟩
  rcases at_skipws (t := t) (s := ps) with ⟨hge, hn⟩ | ⟨hlt, hws, hn⟩
  · have hat : t.at (skipws t ps) = 0 := by
      rw [Text.at, List.getD_eq_getElem?_getD, List.getElem?_eq_none hge]
      rfl
    rw [lex_eq, hn]
    simp [peek, hat]
  · have hc : (peek t ps toks).2 = true ↔ t.at (skipws t ps) ∈ toks := by
      simp [peek, strchr, at_ne_zero h0 hlt]
    rw [lex_eq, hn, hc]
    simp only [List.head?_cons, Option.mem_def, Option.some.injEq, exists_eq_left']
    rcases first_token (t.at (skipws t ps)) (t.drop (skipws t ps + 1)) with hf | ⟨hf, hns⟩
    · rw [hf]
    · rw [hf]
      refine iff_of_false (fun h => hns (hs _ h)) fun h => ?_
      exact absurd (hs _ h) (by decide)

end

/-! ## The parser over tokens -/

/-- The mode and the descriptor of a redirection. -/
def Tok.redir : Tok → Option (Mode × ℕ)
  | lt => some (.rdonly, 0)
  | gt => some (.wronlyCreate, 1)
  | gtgt => some (.wronlyCreate, 1)
  | _ => none

/-- The tokens that end the loop of `parseexec`. -/
def Tok.ends : Tok → Bool
  | bar | rpar | amp | semi => true
  | _ => false

namespace Toks

def parseredirs : ℕ → Cmd Text → List Tok → Except Stop (Cmd Text × List Tok)
  | 0, _, _ => .error .fuel
  | _ + 1, cmd, [] => .ok (cmd, [])
  | n + 1, cmd, k :: ts =>
    match k.redir with
    | none => .ok (cmd, k :: ts)
    | some (mode, fd) =>
      match ts with
      | .word f :: ts => parseredirs n (.redir cmd f mode fd) ts
      | _ => .error (.panic "missing file for redirection")

def parseargs : ℕ → ℕ → Cmd Text → List Tok → Except Stop (Cmd Text × List Tok)
  | 0, _, _, _ => .error .fuel
  | _ + 1, _, ret, [] => .ok (ret, [])
  | n + 1, argc, ret, .word w :: ts =>
    if argc + 1 ≥ MAXARGS then .error (.panic "too many args")
    else do
      let (ret, ts) ← parseredirs n (ret.pushArg w) ts
      parseargs n (argc + 1) ret ts
  | _ + 1, _, ret, k :: ts => if k.ends then .ok (ret, k :: ts) else .error (.panic "syntax")

def parseback : ℕ → Cmd Text → List Tok → Except Stop (Cmd Text × List Tok)
  | 0, _, _ => .error .fuel
  | n + 1, cmd, .amp :: ts => parseback n (.back cmd) ts
  | _ + 1, cmd, ts => .ok (cmd, ts)

mutual

def parseline : ℕ → List Tok → Except Stop (Cmd Text × List Tok)
  | 0, _ => .error .fuel
  | n + 1, ts => do
    let (cmd, ts) ← parsepipe n ts
    let (cmd, ts) ← parseback n cmd ts
    match ts with
    | .semi :: ts =>
      let (right, ts) ← parseline n ts
      return (.list cmd right, ts)
    | ts => return (cmd, ts)

def parsepipe : ℕ → List Tok → Except Stop (Cmd Text × List Tok)
  | 0, _ => .error .fuel
  | n + 1, ts => do
    let (cmd, ts) ← parseexec n ts
    match ts with
    | .bar :: ts =>
      let (right, ts) ← parsepipe n ts
      return (.pipe cmd right, ts)
    | ts => return (cmd, ts)

def parseexec : ℕ → List Tok → Except Stop (Cmd Text × List Tok)
  | 0, _ => .error .fuel
  | n + 1, .lpar :: ts => parseblock n ts
  | n + 1, ts => do
    let (ret, ts) ← parseredirs n (.exec []) ts
    parseargs n 0 ret ts

/-- The text of a block, after the parenthesis that opens it. -/
def parseblock : ℕ → List Tok → Except Stop (Cmd Text × List Tok)
  | 0, _ => .error .fuel
  | n + 1, ts => do
    let (cmd, ts) ← parseline n ts
    match ts with
    | .rpar :: ts => parseredirs n cmd ts
    | _ => .error (.panic "syntax - missing )")

end

theorem parseexec_simple {n : ℕ} {ts : List Tok} (h : ∀ us, ts ≠ .lpar :: us) :
    parseexec (n + 1) ts = parseredirs n (.exec []) ts >>= fun r => parseargs n 0 r.1 r.2 := by
  rw [parseexec]
  exact h

end Toks

/-! ## The two parsers agree -/

/-- Read the words of a command. -/
def Cmd.map {V W : Type} (f : V → W) : Cmd V → Cmd W
  | exec argv => exec (argv.map f)
  | redir c file mode fd => redir (c.map f) (f file) mode fd
  | pipe l r => pipe (l.map f) (r.map f)
  | list l r => list (l.map f) (r.map f)
  | back c => back (c.map f)

/-- The words of a command. -/
def Cmd.words {W : Type} : Cmd W → List W
  | exec argv => argv
  | redir c file _ _ => c.words ++ [file]
  | pipe l r => l.words ++ r.words
  | list l r => l.words ++ r.words
  | back c => c.words

theorem Cmd.map_pushArg {V W : Type} (f : V → W) (w : V) (c : Cmd V) :
    (c.pushArg w).map f = (c.map f).pushArg (f w) := by
  induction c with
  | exec argv => simp [pushArg, map]
  | redir c file mode fd ih => simp [pushArg, map, ih]
  | _ => rfl

theorem Cmd.words_pushArg {W : Type} {w v : W} {c : Cmd W} (hv : v ∈ (c.pushArg w).words) :
    v = w ∨ v ∈ c.words := by
  induction c with
  | exec argv => simpa [pushArg, words, or_comm] using hv
  | redir c file mode fd ih =>
    simp only [pushArg, words, List.mem_append] at hv ⊢
    tauto
  | _ => exact .inr hv

/-- All words are words of the text. -/
def Cmd.Ok (t : Text) (c : Cmd Span) : Prop := ∀ w ∈ c.words, IsWord t w

theorem Cmd.Ok.pushArg {w : Span} {c : Cmd Span} (hw : IsWord t w) (hc : c.Ok t) :
    (c.pushArg w).Ok t := fun v hv =>
  (Cmd.words_pushArg hv).elim (fun h => h ▸ hw) (hc v)

theorem Cmd.Ok.redir {w : Span} {c : Cmd Span} (hc : c.Ok t) (hw : IsWord t w) (mode : Mode)
    (fd : ℕ) : (Cmd.redir c w mode fd).Ok t := fun v hv => by
  rcases List.mem_append.1 hv with hv | hv
  · exact hc v hv
  · exact List.mem_singleton.1 hv ▸ hw

theorem Cmd.Ok.append {c d : Cmd Span} (hc : c.Ok t) (hd : d.Ok t) :
    ∀ w ∈ c.words ++ d.words, IsWord t w := fun w hw =>
  (List.mem_append.1 hw).elim (hc w) (hd w)

/-- Results of the two parsers on the text `t`. -/
inductive Sim (t : Text) :
    Except Stop (Cmd Span × ℕ) → Except Stop (Cmd Text × List Tok) → Prop
  | ok {c : Cmd Span} {ps : ℕ} {ts : List Tok} : c.Ok t → ps ≤ t.length → lex (t.drop ps) = ts →
      Sim t (.ok (c, ps)) (.ok (c.map t.span, ts))
  | error (e : Stop) : Sim t (.error e) (.error e)

theorem Sim.bind {x : Except Stop (Cmd Span × ℕ)} {y : Except Stop (Cmd Text × List Tok)}
    {f : Cmd Span × ℕ → Except Stop (Cmd Span × ℕ)}
    {g : Cmd Text × List Tok → Except Stop (Cmd Text × List Tok)} (h : Sim t x y)
    (hf : ∀ c ps, c.Ok t → ps ≤ t.length →
      Sim t (f (c, ps)) (g (c.map t.span, lex (t.drop ps)))) :
    Sim t (x >>= f) (y >>= g) := by
  cases h with
  | ok hc hle hts => exact hts ▸ hf _ _ hc hle
  | error e => exact .error e

theorem Tok.first_redir (k : Tok) : k.first ∈ [chr '<', chr '>'] ↔ k.redir ≠ none := by
  cases k with
  | word w => exact iff_of_false (by decide : chr 'a' ∉ _) (by simp [redir])
  | _ => decide

theorem Tok.first_ends (k : Tok) :
    k.first ∈ [chr '|', chr ')', chr '&', chr ';'] ↔ k.ends = true := by
  cases k with
  | word w => exact iff_of_false (by decide : chr 'a' ∉ _) (by simp [ends])
  | _ => decide

theorem Tok.code_word (k : Tok) : k.code = chr 'a' ↔ ∃ w, k = word w := by
  cases k with
  | word w => exact iff_of_true rfl ⟨w, rfl⟩
  | _ => exact iff_of_false (by decide) (by simp)

theorem Tok.code_ne_zero (k : Tok) : k.code ≠ 0 := by
  cases k with
  | word w => exact (by decide : chr 'a' ≠ 0)
  | _ => decide

/-- The tokens that the parser looks for one at a time. -/
def Tok.Single (k : Tok) : Prop := k ∈ [bar, lpar, rpar, semi, amp]

theorem Tok.Single.first_eq (hk : k.Single) (k' : Tok) : k'.first = k.code ↔ k' = k := by
  simp only [Single, List.mem_cons, List.not_mem_nil, or_false] at hk
  rcases hk with rfl | rfl | rfl | rfl | rfl
  all_goals
    cases k' with
    | word w => exact iff_of_false (by decide : chr 'a' ≠ _) (by rintro ⟨⟩)
    | _ => decide

theorem Tok.Single.symbol (hk : k.Single) : ∀ c ∈ [k.code], c ∈ symbols := by
  simp only [Single, List.mem_cons, List.not_mem_nil, or_false] at hk
  refine List.forall_mem_singleton.2 ?_
  rcases hk with rfl | rfl | rfl | rfl | rfl <;> decide

section
variable {t : Text} (h0 : 0 ∉ t)

include h0

/-- The parser looks for one token: it finds it and goes behind it, or stays before it. -/
theorem peek_one {k : Tok} (hk : k.Single) {ps : ℕ} (hle : ps ≤ t.length) :
    ∃ ps' ≤ t.length,
      (∃ ts, lex (t.drop ps) = k :: ts ∧ peek t ps [k.code] = (ps', true) ∧
        lex (t.drop ps') = k :: ts ∧ lex (t.drop (gettoken t ps').ps) = ts) ∨
      (∀ ts, lex (t.drop ps) ≠ k :: ts) ∧ peek t ps [k.code] = (ps', false) ∧
        lex (t.drop ps') = lex (t.drop ps) := by
  obtain ⟨hle', hl, hb⟩ := peek_lex h0 hle hk.symbol
  simp only [List.mem_singleton, hk.first_eq] at hb
  refine ⟨_, hle', ?_⟩
  by_cases hts : ∃ ts, lex (t.drop ps) = k :: ts
  · obtain ⟨ts, hts⟩ := hts
    refine .inl ⟨ts, hts, Prod.ext rfl (hb.2 ⟨k, by rw [hts]; rfl, rfl⟩), hl.trans hts, ?_⟩
    rcases gettoken_lex h0 (peek t ps [k.code]).1 with ⟨hnil, -⟩ | ⟨k', hk', -⟩
    · rw [hl, hts] at hnil
      cases hnil
    · rw [hl, hts] at hk'
      exact (List.cons.inj hk').2.symm
  · refine .inr ⟨fun ts h => hts ⟨ts, h⟩, Prod.ext rfl (Bool.eq_false_iff.2 fun h => ?_), hl⟩
    obtain ⟨k', hk', rfl⟩ := hb.1 h
    cases hlex : lex (t.drop ps) with
    | nil => rw [hlex] at hk'; cases hk'
    | cons k'' ts =>
      rw [hlex] at hk'
      obtain rfl : k'' = k' := Option.some.inj hk'
      exact hts ⟨ts, hlex⟩

theorem sim_parseredirs : ∀ (n : ℕ) (cmd : Cmd Span) (ps : ℕ), cmd.Ok t → ps ≤ t.length →
    Sim t (parseredirs t n cmd ps) (Toks.parseredirs n (cmd.map t.span) (lex (t.drop ps)))
  | 0, _, _, _, _ => .error _
  | n + 1, cmd, ps, hc, hle => by
    obtain ⟨hle', hl, hb⟩ := @peek_lex _ h0 _ hle [chr '<', chr '>'] (by simp [symbols])
    simp only [Tok.first_redir] at hb
    rw [parseredirs]
    rcases hpk : peek t ps [chr '<', chr '>'] with ⟨ps', b⟩
    rw [hpk] at hle' hl hb
    dsimp only at hle' hl hb ⊢
    rcases gettoken_lex h0 ps' with ⟨hnil, -⟩ | ⟨k, hk, hret, -⟩
    · rw [hl] at hnil
      rw [if_neg (by simp [hb, hnil]), hnil]
      exact .ok hc hle' (hl.trans hnil)
    rw [hl] at hk
    rw [hk, Toks.parseredirs]
    rcases hr : k.redir with _ | ⟨mode, fd⟩
    · rw [if_neg (by simp [hb, hk, hr])]
      exact .ok hc hle' (hl.trans hk)
    rw [if_pos (by simp [hb, hk, hr])]
    rcases gettoken_lex h0 (gettoken t ps').ps with ⟨hnil, hret', -⟩ | ⟨k', hk', hret', hw⟩
    · rw [hret', hnil, if_pos (by decide)]
      exact .error _
    · rw [hret', hk']
      by_cases hword : ∃ w, k' = .word w
      · obtain ⟨w, rfl⟩ := hword
        obtain ⟨hword, rfl⟩ := hw w rfl
        rw [if_neg (by simp [Tok.code]), hret]
        have hcmd : (redircmd k.code cmd (gettoken t (gettoken t ps').ps).q
            (gettoken t (gettoken t ps').ps).eq) = .redir cmd ((gettoken t (gettoken t ps').ps).q,
            (gettoken t (gettoken t ps').ps).eq) mode fd := by
          cases k with
          | lt | gt | gtgt =>
            cases hr
            rfl
          | _ => cases hr
        rw [hcmd]
        exact sim_parseredirs n _ _ (hc.redir hword mode fd) (gettoken_le (gettoken_le hle'))
      · rw [if_pos (mt k'.code_word.1 hword)]
        cases k' with
        | word w => exact absurd ⟨w, rfl⟩ hword
        | _ => exact .error _

theorem sim_parseargs : ∀ (n argc : ℕ) (ret : Cmd Span) (ps : ℕ), ret.Ok t → ps ≤ t.length →
    Sim t (parseargs t n argc ret ps) (Toks.parseargs n argc (ret.map t.span) (lex (t.drop ps)))
  | 0, _, _, _, _, _ => .error _
  | n + 1, argc, ret, ps, hc, hle => by
    obtain ⟨hle', hl, hb⟩ := @peek_lex _ h0 _ hle [chr '|', chr ')', chr '&', chr ';']
      (by simp [symbols])
    simp only [Tok.first_ends] at hb
    rw [parseargs]
    rcases hpk : peek t ps [chr '|', chr ')', chr '&', chr ';'] with ⟨ps', b⟩
    rw [hpk] at hle' hl hb
    dsimp only at hle' hl hb ⊢
    rcases gettoken_lex h0 ps' with ⟨hnil, hret, hps⟩ | ⟨k, hk, hret, hw⟩
    · rw [hl] at hnil
      rw [if_neg (by simp [hb, hnil]), if_pos hret, hnil]
      exact .ok hc (gettoken_le hle') hps
    rw [hl] at hk
    rw [hk]
    by_cases hends : k.ends = true
    · rw [if_pos (by simp [hb, hk, hends])]
      cases k with
      | bar | rpar | amp | semi => exact .ok hc hle' (hl.trans hk)
      | _ => cases hends
    rw [if_neg (by simp [hb, hk, hends]), hret, if_neg k.code_ne_zero]
    by_cases hword : ∃ w, k = .word w
    · obtain ⟨w, rfl⟩ := hword
      obtain ⟨hword, rfl⟩ := hw w rfl
      rw [if_neg (by simp [Tok.code]), Toks.parseargs]
      split_ifs
      · exact .error _
      · rw [← Cmd.map_pushArg]
        refine (sim_parseredirs h0 n _ _ (hc.pushArg hword) (gettoken_le hle')).bind ?_
        intro c ps hc hle
        exact sim_parseargs n _ c ps hc hle
    · rw [if_pos (mt k.code_word.1 hword)]
      cases k with
      | word w => exact absurd ⟨w, rfl⟩ hword
      | bar | rpar | amp | semi => exact absurd rfl hends
      | _ => exact .error _

theorem sim_parseback : ∀ (n : ℕ) (cmd : Cmd Span) (ps : ℕ), cmd.Ok t → ps ≤ t.length →
    Sim t (parseback t n cmd ps) (Toks.parseback n (cmd.map t.span) (lex (t.drop ps)))
  | 0, _, _, _, _ => .error _
  | n + 1, cmd, ps, hc, hle => by
    rw [parseback]
    obtain ⟨ps', hle', ⟨ts, hts, (hpk : peek t ps [chr '&'] = _), -, hps⟩ |
      ⟨hne, (hpk : peek t ps [chr '&'] = _), hps⟩⟩ :=
        peek_one h0 (k := .amp) (by simp [Tok.Single]) hle
    · rw [hpk, hts, Toks.parseback, ← hps]
      exact sim_parseback n (.back cmd) _ hc (gettoken_le hle')
    · rw [hpk, Toks.parseback]
      · exact .ok hc hle' hps
      · exact hne

/-- **Both parsers agree.** -/
theorem sim_parse (n : ℕ) :
    (∀ ps ≤ t.length, Sim t (parseline t n ps) (Toks.parseline n (lex (t.drop ps)))) ∧
    (∀ ps ≤ t.length, Sim t (parsepipe t n ps) (Toks.parsepipe n (lex (t.drop ps)))) ∧
    (∀ ps ≤ t.length, Sim t (parseexec t n ps) (Toks.parseexec n (lex (t.drop ps)))) ∧
    ∀ ps ≤ t.length, ∀ ts, lex (t.drop ps) = .lpar :: ts →
      Sim t (parseblock t n ps) (Toks.parseblock n ts) := by
  induction n with
  | zero =>
    simp only [parseline, parsepipe, parseexec, parseblock, Toks.parseline, Toks.parsepipe,
      Toks.parseexec, Toks.parseblock]
    exact ⟨fun _ _ => .error _, fun _ _ => .error _, fun _ _ => .error _, fun _ _ _ _ => .error _⟩
  | succ n ih =>
    obtain ⟨hline, hpipe, hexec, hblock⟩ := ih
    refine ⟨fun ps hle => ?_, fun ps hle => ?_, fun ps hle => ?_, fun ps hle ts hts => ?_⟩
    · rw [parseline, Toks.parseline]
      refine (hpipe ps hle).bind fun c ps hc hle =>
        (sim_parseback h0 n c ps hc hle).bind fun c ps hc hle => ?_
      obtain ⟨ps', hle', ⟨ts, hts, (hpk : peek t ps [chr ';'] = _), -, hps⟩ |
        ⟨hne, (hpk : peek t ps [chr ';'] = _), hps⟩⟩ :=
          peek_one h0 (k := .semi) (by simp [Tok.Single]) hle
      · simp only [hpk, hts, if_pos, ← hps]
        refine (hline _ (gettoken_le hle')).bind fun d ps hd hle => ?_
        exact .ok (hc.append hd) hle rfl
      · simp only [hpk, Bool.false_eq_true, if_false]
        exact .ok hc hle' hps
    · rw [parsepipe, Toks.parsepipe]
      refine (hexec ps hle).bind fun c ps hc hle => ?_
      obtain ⟨ps', hle', ⟨ts, hts, (hpk : peek t ps [chr '|'] = _), -, hps⟩ |
        ⟨hne, (hpk : peek t ps [chr '|'] = _), hps⟩⟩ :=
          peek_one h0 (k := .bar) (by simp [Tok.Single]) hle
      · simp only [hpk, hts, if_pos, ← hps]
        refine (hpipe _ (gettoken_le hle')).bind fun d ps hd hle => ?_
        exact .ok (hc.append hd) hle rfl
      · simp only [hpk, Bool.false_eq_true, if_false]
        exact .ok hc hle' hps
    · rw [parseexec]
      obtain ⟨ps', hle', ⟨ts, hts, (hpk : peek t ps [chr '('] = _), hps, -⟩ |
        ⟨hne, (hpk : peek t ps [chr '('] = _), hps⟩⟩ :=
          peek_one h0 (k := .lpar) (by simp [Tok.Single]) hle
      · rw [hts, Toks.parseexec, hpk]
        exact hblock ps' hle' ts hps
      · rw [Toks.parseexec_simple hne, ← hps]
        simp only [hpk, Bool.false_eq_true, if_false]
        refine (sim_parseredirs h0 n (.exec []) ps' (by simp [Cmd.Ok, Cmd.words]) hle').bind ?_
        exact sim_parseargs h0 n 0
    · rw [parseblock, Toks.parseblock]
      obtain ⟨ps', hle', ⟨ts', hts', (hpk : peek t ps [chr '('] = _), -, hps⟩ | ⟨hne, -⟩⟩ :=
        peek_one h0 (k := .lpar) (by simp [Tok.Single]) hle
      · obtain rfl : ts = ts' := (List.cons.inj (hts.symm.trans hts')).2
        simp only [hpk, Bool.not_true, Bool.false_eq_true, if_false, ← hps]
        refine (hline _ (gettoken_le hle')).bind fun c ps hc hle => ?_
        obtain ⟨ps', hle', ⟨us, hus, (hpk : peek t ps [chr ')'] = _), -, hps⟩ |
          ⟨hne, (hpk : peek t ps [chr ')'] = _), hps⟩⟩ :=
            peek_one h0 (k := .rpar) (by simp [Tok.Single]) hle
        · simp only [hpk, hus, Bool.not_true, Bool.false_eq_true, if_false, ← hps]
          exact sim_parseredirs h0 n c _ hc (gettoken_le hle')
        · simp only [hpk, Bool.not_false, if_true]
          exact .error _
      · exact absurd hts (hne ts)

end

end Sh

end Xv6
