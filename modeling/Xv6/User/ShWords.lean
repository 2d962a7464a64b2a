/-
  What `nulterminate` (`sh.c`) does to the words of a command line.

  The words of a command are pairs of positions in the text.  A word ends where
  no word character follows, and no other word covers or starts at that
  position, so the NUL written there cuts exactly this word (`nulterminate_cuts`).
  Each word of the text stands in one place of the command (`Line.words`).
-/
import Xv6.User.ShGrammar

namespace Xv6

namespace Sh

/-- The argument vectors of a command. -/
def Cmd.execs {W : Type} : Cmd W → List (List W)
  | exec argv => [argv]
  | redir c _ _ _ => c.execs
  | pipe l r => l.execs ++ r.execs
  | list l r => l.execs ++ r.execs
  | back c => c.execs

/-- The text of a word. -/
def Tok.text : Tok → Option Text
  | word w => some w
  | _ => none

/-! ## The words of a derivation -/

theorem Tok.text_redir {k : Tok} {m : Mode × ℕ} (h : k.redir = some m) : k.text = none := by
  cases k <;> first | rfl | cases h

theorem filterMap_word (w : Text) (ts : List Tok) :
    (Tok.word w :: ts).filterMap Tok.text = w :: ts.filterMap Tok.text := rfl

theorem filterMap_amp (n : ℕ) : (List.replicate n Tok.amp).filterMap Tok.text = [] := by
  rw [List.filterMap_replicate_of_none rfl]

theorem words_wrap (c : Cmd Text) (rs : List Redir) :
    (wrap c rs).words = c.words ++ rs.map Prod.fst := by
  induction rs generalizing c with
  | nil => simp [wrap]
  | cons r rs ih =>
    rw [wrap, List.foldl_cons, ← wrap, ih]
    simp [Cmd.words]

theorem execs_wrap (c : Cmd Text) (rs : List Redir) : (wrap c rs).execs = c.execs := by
  induction rs generalizing c with
  | nil => rfl
  | cons r rs ih =>
    rw [wrap, List.foldl_cons, ← wrap, ih]
    rfl

theorem words_backs (n : ℕ) (c : Cmd Text) : (backs n c).words = c.words := by
  induction n generalizing c with
  | zero => rfl
  | succ n ih => exact ih _

theorem execs_backs (n : ℕ) (c : Cmd Text) : (backs n c).execs = c.execs := by
  induction n generalizing c with
  | zero => rfl
  | succ n ih => exact ih _

theorem Redirs.words {ts : List Tok} {rs : List Redir} (h : Redirs ts rs) :
    ts.filterMap Tok.text = rs.map Prod.fst := by
  induction h with
  | nil => rfl
  | cons hk _ ih =>
    rw [List.filterMap_cons_none (Tok.text_redir hk), filterMap_word, ih]
    rfl

theorem Args.words {ts : List Tok} {ws : List Text} {rs : List Redir} (h : Args ts ws rs) :
    (ts.filterMap Tok.text).Perm (ws ++ rs.map Prod.fst) := by
  induction h with
  | nil => exact .refl _
  | @cons w us ts rs rs' ws hr _ ih =>
    rw [filterMap_word, List.filterMap_append, hr.words, List.map_append,
      List.cons_append]
    refine .cons _ ((ih.append_left _).trans ?_)
    rw [← List.append_assoc, ← List.append_assoc]
    exact List.perm_append_comm.append_right _

mutual

theorem Line.words {ts : List Tok} {c : Cmd Text} : Line ts c →
    (ts.filterMap Tok.text).Perm c.words
  | .last n h => by
    rw [List.filterMap_append, filterMap_amp, List.append_nil, words_backs]
    exact h.words
  | .cons n h h' => by
    rw [List.filterMap_append, List.filterMap_append, filterMap_amp, List.append_nil,
      List.filterMap_cons_none rfl, Cmd.words, words_backs]
    exact h.words.append h'.words

theorem Pipe.words {ts : List Tok} {c : Cmd Text} : Pipe ts c →
    (ts.filterMap Tok.text).Perm c.words
  | .last h => h.words
  | .cons h h' => by
    rw [List.filterMap_append, List.filterMap_cons_none rfl, Cmd.words]
    exact h.words.append h'.words

theorem Exec.words {ts : List Tok} {c : Cmd Text} : Exec ts c →
    (ts.filterMap Tok.text).Perm c.words
  | .block h hr => by
    rw [List.filterMap_cons_none rfl, List.filterMap_append, List.filterMap_cons_none rfl, hr.words,
      words_wrap]
    exact h.words.append_right _
  | .simple hr ha _ => by
    rw [List.filterMap_append, hr.words, words_wrap, List.map_append, Cmd.words]
    refine (ha.words.append_left _).trans ?_
    rw [← List.append_assoc, ← List.append_assoc]
    exact List.perm_append_comm.append_right _

end

mutual

theorem Line.execs {ts : List Tok} {c : Cmd Text} : Line ts c →
    ∀ argv ∈ c.execs, argv.length < MAXARGS
  | .last n h => by
    rw [execs_backs]
    exact h.execs
  | .cons n h h' => by
    rw [Cmd.execs, execs_backs]
    exact List.forall_mem_append.2 ⟨h.execs, h'.execs⟩

theorem Pipe.execs {ts : List Tok} {c : Cmd Text} : Pipe ts c →
    ∀ argv ∈ c.execs, argv.length < MAXARGS
  | .last h => h.execs
  | .cons h h' => List.forall_mem_append.2 ⟨h.execs, h'.execs⟩

theorem Exec.execs {ts : List Tok} {c : Cmd Text} : Exec ts c →
    ∀ argv ∈ c.execs, argv.length < MAXARGS
  | .block h _ => by
    rw [execs_wrap]
    exact h.execs
  | .simple _ _ hlen => by
    rw [execs_wrap, Cmd.execs]
    exact List.forall_mem_singleton.2 hlen

end

/-! ## The words in the text -/

theorem Cmd.words_map {V W : Type} (f : V → W) (c : Cmd V) : (c.map f).words = c.words.map f := by
  induction c with
  | exec argv => rfl
  | redir c file mode fd ih => rw [map, words, ih, words, List.map_append]; rfl
  | pipe l r ihl ihr | list l r ihl ihr => rw [map, words, ihl, ihr, words, List.map_append]
  | back c ih => exact ih

theorem Cmd.execs_map {V W : Type} (f : V → W) (c : Cmd V) :
    (c.map f).execs = c.execs.map (List.map f) := by
  induction c with
  | exec argv => rfl
  | redir c file mode fd ih => exact ih
  | pipe l r ihl ihr | list l r ihl ihr => rw [map, execs, ihl, ihr, execs, List.map_append]
  | back c ih => exact ih

theorem token_word_ne_nil {c : UInt8} {r w : Text} (h : (token c r).1 = .word w) : w ≠ [] := by
  unfold token at h
  rcases Tok.ofChar_spec c with ⟨k, hk, -, hword, -⟩ | ⟨hnone, -⟩
  · rw [hk] at h
    exact absurd h (hword w)
  · rw [hnone] at h
    dsimp only at h
    split_ifs at h
    cases h
    rintro ⟨⟩

/-- A word of the text is not empty. -/
theorem lex_word_ne_nil (s : Text) : ∀ w, Tok.word w ∈ lex s → w ≠ [] := by
  intro w hw
  rw [lex_eq] at hw
  split at hw
  · cases hw
  · rename_i k r h
    have hlt := next_length h
    rcases List.mem_cons.1 hw with rfl | hw
    · unfold next at h
      split at h
      · cases h
      · exact token_word_ne_nil (congrArg Prod.fst (Option.some.inj h))
    · exact lex_word_ne_nil r w hw
termination_by s.length

theorem Tok.text_eq_some {k : Tok} {w : Text} (h : k.text = some w) : k = word w := by
  cases k <;> cases h
  rfl

/-- **Every word is cut exactly.**  After `nulterminate` the words of the command are, as strings,
the words of the text, each in one place; a NUL is written at the end of every word and nowhere
else, and that is not a place in or at the start of another word; an argument vector has room for
its terminating 0. -/
theorem nulterminate_cuts {s : Text} (h0 : 0 ∉ s) {fuel : ℕ} {cmd : Cmd Span} {t : Text}
    (h : parsecmd fuel s = .ok (cmd, t)) :
    (∀ w ∈ cmd.words, w.1 < w.2 ∧ t.cstr w.1 = s.span w) ∧
    ((lex s).filterMap Tok.text).Perm (cmd.words.map fun w => t.cstr w.1) ∧
    (∀ i, t.at i = if i ∈ cmd.words.map Prod.snd then 0 else s.at i) ∧
    (∀ w ∈ cmd.words, ∀ v ∈ cmd.words, w.2 < v.1 ∨ v.2 ≤ w.2) ∧
    ∀ argv ∈ cmd.execs, argv.length < MAXARGS := by
  obtain ⟨rfl, hok, hline⟩ := parsecmd_sound h0 h
  have hcut : ∀ w ∈ cmd.words, (nulterminate cmd s).cstr w.1 = s.span w := fun w hw =>
    cstr_nulterminate h0 hok hw
  have hperm := hline.words
  rw [Cmd.words_map] at hperm
  refine ⟨fun w hw => ⟨?_, hcut w hw⟩, ?_, fun i => ?_, fun w hw v hv => ?_, fun argv hargv => ?_⟩
  · obtain ⟨k, hk, htext⟩ := List.mem_filterMap.1 (hperm.mem_iff.2 (List.mem_map_of_mem hw))
    rw [Tok.text_eq_some htext] at hk
    by_contra hle
    refine lex_word_ne_nil s _ hk ?_
    rw [Text.span, Nat.sub_eq_zero_of_le (Nat.not_lt.1 hle), List.take_zero]
  · rw [List.map_congr_left hcut]
    exact hperm
  · obtain ⟨-, hends, hother⟩ := foldl_clear cmd.words s
    rw [← nulterminate_eq] at hends hother
    split_ifs with hi
    · obtain ⟨w, hw, rfl⟩ := List.mem_map.1 hi
      exact hends w hw
    · exact hother i fun w hw heq => hi (List.mem_map.2 ⟨w, hw, heq⟩)
  · -- the character at the end of `w` is no word character, those of `v` are
    obtain ⟨-, hlen, hin, -⟩ := hok v hv
    by_contra hno
    have hword := hin w.2 (by omega) (by omega)
    exact (hok w hw).2.2.2 (by omega) hword
  · have hlen := hline.execs (argv.map s.span) (by
      rw [Cmd.execs_map]
      exact List.mem_map_of_mem hargv)
    rwa [List.length_map] at hlen

-- In the line "a>f b" the words end at 1, 3 and 5.
theorem nulterminate_cuts_redir : ∃ cmd t, parsecmd 9 [97, 62, 102, 32, 98] = .ok (cmd, t) ∧
    t = [97, 0, 102, 0, 98] ∧ cmd.words = [(0, 1), (4, 5), (2, 3)] ∧
    (∀ w ∈ cmd.words, w.1 < w.2 ∧ t.cstr w.1 = Text.span [97, 62, 102, 32, 98] w) ∧
    ∀ w ∈ cmd.words, ∀ v ∈ cmd.words, w.2 < v.1 ∨ v.2 ≤ w.2 := by
  have h : parsecmd 9 [97, 62, 102, 32, 98] =
      .ok (.redir (.exec [(0, 1), (4, 5)]) (2, 3) .wronlyCreate 1, [97, 0, 102, 0, 98]) := by
    decide +kernel
  obtain ⟨hwords, -, -, hends, -⟩ := nulterminate_cuts (by decide) h
  exact ⟨_, _, h, rfl, rfl, hwords, hends⟩

end Sh

end Xv6
