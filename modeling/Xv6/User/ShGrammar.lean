/-
  The shell's parser accepts exactly its grammar.

    line  → pipe '&'* [';' line]
    pipe  → exec ['|' pipe]
    exec  → '(' line ')' redir*  |  redir* (word redir*)*
    redir → ('<' | '>' | '>>') word

  with fewer than `MAXARGS` words in an `exec`.  `Line ts c` says that the
  tokens `ts` are derived from `line`, and `c` is the command of this
  derivation.
-/
import Xv6.User.ShTokens

namespace Xv6

namespace Sh

/-! ## The grammar -/

/-- A file, and how it is opened. -/
abbrev Redir := Text × Mode × ℕ

/-- `redir*` -/
inductive Redirs : List Tok → List Redir → Prop
  | nil : Redirs [] []
  | cons {k : Tok} {f : Text} {mode : Mode} {fd : ℕ} {ts : List Tok} {rs : List Redir} :
      k.redir = some (mode, fd) → Redirs ts rs → Redirs (k :: .word f :: ts) ((f, mode, fd) :: rs)

/-- `(word redir*)*` -/
inductive Args : List Tok → List Text → List Redir → Prop
  | nil : Args [] [] []
  | cons {w : Text} {us ts : List Tok} {rs rs' : List Redir} {ws : List Text} :
      Redirs us rs → Args ts ws rs' → Args (.word w :: (us ++ ts)) (w :: ws) (rs ++ rs')

/-- One node for each redirection, the later ones outermost. -/
def wrap (c : Cmd Text) (rs : List Redir) : Cmd Text :=
  rs.foldl (fun c r => .redir c r.1 r.2.1 r.2.2) c

/-- One node for each `&`. -/
def backs : ℕ → Cmd Text → Cmd Text
  | 0, c => c
  | n + 1, c => backs n (.back c)

mutual

inductive Line : List Tok → Cmd Text → Prop
  | last {ts : List Tok} {c : Cmd Text} (n : ℕ) :
      Pipe ts c → Line (ts ++ List.replicate n .amp) (backs n c)
  | cons {ts us : List Tok} {c d : Cmd Text} (n : ℕ) : Pipe ts c → Line us d →
      Line (ts ++ List.replicate n .amp ++ .semi :: us) (.list (backs n c) d)

inductive Pipe : List Tok → Cmd Text → Prop
  | last {ts : List Tok} {c : Cmd Text} : Exec ts c → Pipe ts c
  | cons {ts us : List Tok} {c d : Cmd Text} : Exec ts c → Pipe us d →
      Pipe (ts ++ .bar :: us) (.pipe c d)

inductive Exec : List Tok → Cmd Text → Prop
  | block {ts us : List Tok} {c : Cmd Text} {rs : List Redir} : Line ts c → Redirs us rs →
      Exec (.lpar :: (ts ++ .rpar :: us)) (wrap c rs)
  | simple {ts us : List Tok} {ws : List Text} {rs rs' : List Redir} : Redirs us rs →
      Args ts ws rs' → ws.length < MAXARGS → Exec (us ++ ts) (wrap (.exec ws) (rs ++ rs'))

end

theorem wrap_append (c : Cmd Text) (rs rs' : List Redir) :
    wrap c (rs ++ rs') = wrap (wrap c rs) rs' := List.foldl_append

theorem pushArg_wrap (w : Text) (ws : List Text) (rs : List Redir) :
    (wrap (.exec ws) rs).pushArg w = wrap (.exec (ws ++ [w])) rs := by
  induction rs using List.reverseRecOn with
  | nil => rfl
  | append_singleton rs r ih =>
    rw [wrap_append, wrap_append]
    exact congrArg (Cmd.redir · r.1 r.2.1 r.2.2) ih

/-! ## The parser returns -/

section
open Fallible

/-- The tokens left are not more than before. -/
abbrev Returns (ts : List Tok) (x : Except Stop (Cmd Text × List Tok)) : Prop :=
  Safe .fuel (fun r => r.2.length ≤ ts.length) x

theorem returns_parseredirs : ∀ (n : ℕ) (c : Cmd Text) (ts : List Tok), ts.length < n →
    Returns ts (Toks.parseredirs n c ts)
  | 0, _, _, h => absurd h (Nat.not_lt_zero _)
  | _ + 1, _, [], _ => .ok le_rfl
  | n + 1, c, k :: ts, h => by
    rw [Toks.parseredirs]
    split
    · exact .ok le_rfl
    · split
      · rename_i f us
        simp only [List.length_cons] at h
        refine (returns_parseredirs n _ us (by omega)).mono fun r hr => ?_
        simp only [List.length_cons]
        omega
      · exact .error (by rintro ⟨⟩)

theorem returns_parseargs : ∀ (n argc : ℕ) (c : Cmd Text) (ts : List Tok), ts.length < n →
    Returns ts (Toks.parseargs n argc c ts)
  | 0, _, _, _, h => absurd h (Nat.not_lt_zero _)
  | n + 1, argc, c, ts, h => by
    rw [Toks.parseargs.eq_def]
    split
    · exact absurd ‹_› (Nat.succ_ne_zero _)
    · exact .ok le_rfl
    · rename_i m w us hm
      cases hm
      simp only [List.length_cons] at h
      split_ifs
      · exact .error (by rintro ⟨⟩)
      · refine (returns_parseredirs n _ us (by omega)).bind fun r hr => ?_
        refine (returns_parseargs n _ _ _ (by omega)).mono fun r' hr' => ?_
        rw [List.length_cons]
        omega
    · split_ifs
      · exact .ok le_rfl
      · exact .error (by rintro ⟨⟩)

theorem returns_parseback : ∀ (n : ℕ) (c : Cmd Text) (ts : List Tok), ts.length < n →
    Returns ts (Toks.parseback n c ts)
  | 0, _, _, h => absurd h (Nat.not_lt_zero _)
  | n + 1, c, ts, h => by
    rw [Toks.parseback.eq_def]
    split
    · exact absurd ‹_› (Nat.succ_ne_zero _)
    · rename_i m us hm
      cases hm
      simp only [List.length_cons] at h
      refine (returns_parseback n _ us (by omega)).mono fun r hr => ?_
      rw [List.length_cons]
      omega
    · exact .ok le_rfl

/-- Every call of the recursion takes a token before the next one of its kind, and there are four
    kinds. -/
theorem returns_parse (n : ℕ) :
    (∀ ts, 4 * ts.length + 4 ≤ n → Returns ts (Toks.parseline n ts)) ∧
    (∀ ts, 4 * ts.length + 3 ≤ n → Returns ts (Toks.parsepipe n ts)) ∧
    (∀ ts, 4 * ts.length + 2 ≤ n → Returns ts (Toks.parseexec n ts)) ∧
    ∀ ts, 4 * ts.length + 5 ≤ n → Returns ts (Toks.parseblock n ts) := by
  induction n with
  | zero => exact ⟨fun _ h => by omega, fun _ h => by omega, fun _ h => by omega,
      fun _ h => by omega⟩
  | succ n ih =>
    obtain ⟨hline, hpipe, hexec, hblock⟩ := ih
    refine ⟨fun ts h => ?_, fun ts h => ?_, fun ts h => ?_, fun ts h => ?_⟩
    · rw [Toks.parseline]
      refine (hpipe ts (by omega)).bind fun r hr => ?_
      refine (returns_parseback n r.1 r.2 (by omega)).bind fun r' hr' => ?_
      dsimp only
      split
      · rename_i us hus
        rw [hus, List.length_cons] at hr'
        refine (hline us (by omega)).bind fun r'' hr'' => .ok ?_
        dsimp only
        omega
      · exact .ok (hr'.trans hr)
    · rw [Toks.parsepipe]
      refine (hexec ts (by omega)).bind fun r hr => ?_
      dsimp only
      split
      · rename_i us hus
        rw [hus, List.length_cons] at hr
        refine (hpipe us (by omega)).bind fun r' hr' => .ok ?_
        dsimp only
        omega
      · exact .ok hr
    · by_cases hts : ∃ us, ts = .lpar :: us
      · obtain ⟨us, rfl⟩ := hts
        rw [Toks.parseexec]
        simp only [List.length_cons] at h
        refine (hblock us (by omega)).mono fun r hr => ?_
        rw [List.length_cons]
        omega
      · rw [Toks.parseexec_simple fun us hus => hts ⟨us, hus⟩]
        refine (returns_parseredirs n _ ts (by omega)).bind fun r hr => ?_
        exact (returns_parseargs n _ _ _ (by omega)).mono fun r' hr' => hr'.trans hr
    · rw [Toks.parseblock]
      refine (hline ts (by omega)).bind fun r hr => ?_
      dsimp only
      split
      · rename_i us hus
        rw [hus, List.length_cons] at hr
        exact (returns_parseredirs n _ us (by omega)).mono fun r' hr' => by omega
      · exact .error (by rintro ⟨⟩)

end

/-! ## What the parser accepts is derived -/

section
open Fallible

theorem parseredirs_sound : ∀ {n : ℕ} {c c' : Cmd Text} {ts ts' : List Tok},
    Toks.parseredirs n c ts = .ok (c', ts') →
    ∃ u rs, ts = u ++ ts' ∧ Redirs u rs ∧ c' = wrap c rs
  | 0, _, _, _, _, h => by cases h
  | _ + 1, _, _, [], _, h => by
    cases h
    exact ⟨[], [], rfl, .nil, rfl⟩
  | n + 1, c, c', k :: ts, ts', h => by
    rw [Toks.parseredirs] at h
    split at h
    · cases h
      exact ⟨[], [], rfl, .nil, rfl⟩
    · rename_i mode fd hr
      split at h
      · rename_i f us
        obtain ⟨u, rs, rfl, hu, rfl⟩ := parseredirs_sound h
        exact ⟨k :: .word f :: u, (f, mode, fd) :: rs, rfl, .cons hr hu, rfl⟩
      · cases h

theorem parseargs_sound : ∀ {n argc : ℕ} {ws : List Text} {rs : List Redir} {c' : Cmd Text}
    {ts ts' : List Tok}, Toks.parseargs n argc (wrap (.exec ws) rs) ts = .ok (c', ts') →
    argc < MAXARGS → ∃ u ws' rs', ts = u ++ ts' ∧ Args u ws' rs' ∧
      c' = wrap (.exec (ws ++ ws')) (rs ++ rs') ∧ argc + ws'.length < MAXARGS
  | 0, _, _, _, _, _, _, h, _ => by cases h
  | n + 1, argc, ws, rs, c', ts, ts', h, hargc => by
    have hstop : ∀ {us}, (.ok (wrap (.exec ws) rs, us) : Except Stop _) = .ok (c', ts') →
        ∃ u ws' rs', us = u ++ ts' ∧ Args u ws' rs' ∧ c' = wrap (.exec (ws ++ ws')) (rs ++ rs') ∧
          argc + ws'.length < MAXARGS := by
      intro us h
      cases h
      exact ⟨[], [], [], rfl, .nil, by simp, hargc⟩
    rw [Toks.parseargs.eq_def] at h
    split at h
    · cases h
    · exact hstop h
    · rename_i m w us hm
      cases hm
      split_ifs at h with hmax
      · obtain ⟨⟨c₁, ts₁⟩, h₁, h₂⟩ := bind_ok h
        obtain ⟨u₁, rs₁, rfl, hu₁, rfl⟩ := parseredirs_sound h₁
        dsimp only at h₂
        rw [pushArg_wrap, ← wrap_append] at h₂
        obtain ⟨u₂, ws₂, rs₂, rfl, hu₂, rfl, hlen⟩ := parseargs_sound h₂ (by omega)
        refine ⟨.word w :: (u₁ ++ u₂), w :: ws₂, rs₁ ++ rs₂, by simp, .cons hu₁ hu₂, by simp, ?_⟩
        rw [List.length_cons]
        omega
    · split_ifs at h
      exact hstop h

theorem parseback_sound : ∀ {n : ℕ} {c c' : Cmd Text} {ts ts' : List Tok},
    Toks.parseback n c ts = .ok (c', ts') →
    ∃ m, ts = List.replicate m .amp ++ ts' ∧ c' = backs m c
  | 0, _, _, _, _, h => by cases h
  | n + 1, c, c', ts, ts', h => by
    rw [Toks.parseback.eq_def] at h
    split at h
    · cases h
    · rename_i m us hm
      cases hm
      obtain ⟨m, rfl, rfl⟩ := parseback_sound h
      exact ⟨m + 1, rfl, rfl⟩
    · cases h
      exact ⟨0, rfl, rfl⟩

theorem parse_sound (n : ℕ) :
    (∀ {ts ts' c}, Toks.parseline n ts = .ok (c, ts') → ∃ u, ts = u ++ ts' ∧ Line u c) ∧
    (∀ {ts ts' c}, Toks.parsepipe n ts = .ok (c, ts') → ∃ u, ts = u ++ ts' ∧ Pipe u c) ∧
    (∀ {ts ts' c}, Toks.parseexec n ts = .ok (c, ts') → ∃ u, ts = u ++ ts' ∧ Exec u c) ∧
    ∀ {ts ts' c}, Toks.parseblock n ts = .ok (c, ts') → ∃ u, ts = u ++ ts' ∧ Exec (.lpar :: u) c := by
  induction n with
  | zero =>
    simp only [Toks.parseline, Toks.parsepipe, Toks.parseexec, Toks.parseblock]
    exact ⟨by rintro _ _ _ ⟨⟩, by rintro _ _ _ ⟨⟩, by rintro _ _ _ ⟨⟩, by rintro _ _ _ ⟨⟩⟩
  | succ n ih =>
    obtain ⟨hline, hpipe, hexec, hblock⟩ := ih
    refine ⟨fun {ts ts' c} h => ?_, fun {ts ts' c} h => ?_, fun {ts ts' c} h => ?_,
      fun {ts ts' c} h => ?_⟩
    · rw [Toks.parseline] at h
      obtain ⟨⟨c₁, ts₁⟩, h₁, h'⟩ := bind_ok h
      obtain ⟨⟨c₂, ts₂⟩, h₂, hr⟩ := bind_ok h'
      clear h h'
      obtain ⟨u₁, rfl, hu₁⟩ := hpipe h₁
      obtain ⟨m, rfl, rfl⟩ := parseback_sound h₂
      dsimp only at hr
      split at hr
      · obtain ⟨⟨d, ts₃⟩, h₃, h₄⟩ := bind_ok hr
        cases h₄
        obtain ⟨u₂, rfl, hu₂⟩ := hline h₃
        exact ⟨u₁ ++ List.replicate m .amp ++ .semi :: u₂, by simp, .cons m hu₁ hu₂⟩
      · cases hr
        exact ⟨u₁ ++ List.replicate m .amp, by simp, .last m hu₁⟩
    · rw [Toks.parsepipe] at h
      obtain ⟨⟨c₁, ts₁⟩, h₁, hr⟩ := bind_ok h
      clear h
      obtain ⟨u₁, rfl, hu₁⟩ := hexec h₁
      dsimp only at hr
      split at hr
      · obtain ⟨⟨d, ts₂⟩, h₂, h₃⟩ := bind_ok hr
        cases h₃
        obtain ⟨u₂, rfl, hu₂⟩ := hpipe h₂
        exact ⟨u₁ ++ .bar :: u₂, by simp, .cons hu₁ hu₂⟩
      · cases hr
        exact ⟨u₁, rfl, .last hu₁⟩
    · by_cases hts : ∃ us, ts = .lpar :: us
      · obtain ⟨us, rfl⟩ := hts
        rw [Toks.parseexec] at h
        obtain ⟨u, rfl, hu⟩ := hblock h
        exact ⟨.lpar :: u, rfl, hu⟩
      · rw [Toks.parseexec_simple fun us hus => hts ⟨us, hus⟩] at h
        obtain ⟨⟨c₁, ts₁⟩, h₁, h₂⟩ := bind_ok h
        obtain ⟨u₁, rs₁, rfl, hu₁, rfl⟩ := parseredirs_sound h₁
        obtain ⟨u₂, ws, rs₂, rfl, hu₂, rfl, hlen⟩ := parseargs_sound h₂ (by decide)
        rw [List.nil_append]
        exact ⟨u₁ ++ u₂, by simp, .simple hu₁ hu₂ (by omega)⟩
    · rw [Toks.parseblock] at h
      obtain ⟨⟨c₁, ts₁⟩, h₁, hr⟩ := bind_ok h
      clear h
      obtain ⟨u₁, rfl, hu₁⟩ := hline h₁
      dsimp only at hr
      split at hr
      · obtain ⟨u₂, rs, rfl, hu₂, rfl⟩ := parseredirs_sound hr
        exact ⟨u₁ ++ .rpar :: u₂, by simp, .block hu₁ hu₂⟩
      · cases hr

end

/-! ## What is derived is accepted -/

/-- No redirection follows. -/
def NoRedir (v : List Tok) : Prop := ∀ k ∈ v.head?, k.redir = none

/-- An `exec` ends here. -/
def ExecEnds (v : List Tok) : Prop := ∀ k ∈ v.head?, k.ends = true

variable {v : List Tok} {ws : List Text} {rs : List Redir} {s : Text}

theorem ExecEnds.noRedir (h : ExecEnds v) : NoRedir v := fun k hk => by
  have := h k hk
  cases k with
  | bar | rpar | amp | semi => rfl
  | _ => cases this

theorem execEnds_cons {k : Tok} (h : k.ends = true) (v : List Tok) : ExecEnds (k :: v) :=
  fun k' hk => by cases hk; exact h

theorem Args.noRedir {ts v : List Tok} (h : Args ts ws rs) (hv : ExecEnds v) :
    NoRedir (ts ++ v) := by
  cases h with
  | nil => exact hv.noRedir
  | cons => exact fun k hk => by cases hk; rfl

theorem parseredirs_complete {u : List Tok} (h : Redirs u rs) (hv : NoRedir v) (c : Cmd Text) :
    ∀ n, (u ++ v).length < n →
    Toks.parseredirs n c (u ++ v) = .ok (wrap c rs, v) := by
  induction h generalizing c with
  | nil =>
    intro n hn
    obtain ⟨n, rfl⟩ : ∃ m, n = m + 1 := ⟨n - 1, by omega⟩
    rw [List.nil_append]
    cases v with
    | nil => rfl
    | cons k v => rw [Toks.parseredirs, hv k rfl]; rfl
  | @cons k f mode fd ts rs hk _ ih =>
    intro n hn
    obtain ⟨n, rfl⟩ : ∃ m, n = m + 1 := ⟨n - 1, by omega⟩
    rw [List.cons_append, List.cons_append, Toks.parseredirs, hk]
    refine ih _ n ?_
    simp only [List.cons_append, List.length_cons] at hn
    omega

theorem parseargs_complete {u : List Tok} (h : Args u ws rs) (hv : ExecEnds v) {argc : ℕ}
    (ws₀ : List Text) (rs₀ : List Redir) (hlen : argc + ws.length < MAXARGS) :
    ∀ n, (u ++ v).length < n →
    Toks.parseargs n argc (wrap (.exec ws₀) rs₀) (u ++ v) =
      .ok (wrap (.exec (ws₀ ++ ws)) (rs₀ ++ rs), v) := by
  induction h generalizing argc ws₀ rs₀ with
  | nil =>
    intro n hn
    obtain ⟨n, rfl⟩ : ∃ m, n = m + 1 := ⟨n - 1, by omega⟩
    simp only [List.nil_append, List.append_nil]
    cases v with
    | nil => rfl
    | cons k v =>
      have hk := hv k rfl
      cases k with
      | bar | rpar | amp | semi => rfl
      | _ => cases hk
  | @cons w us ts rs rs' ws hu ha ih =>
    intro n hn
    obtain ⟨n, rfl⟩ : ∃ m, n = m + 1 := ⟨n - 1, by omega⟩
    simp only [List.cons_append, List.append_assoc, List.length_cons] at hn hlen ⊢
    rw [Toks.parseargs, if_neg (by omega), pushArg_wrap,
      parseredirs_complete hu (ha.noRedir hv) _ n (by omega)]
    have hn' : (ts ++ v).length < n := by
      rw [List.length_append] at hn
      omega
    have := @ih (argc + 1) (ws₀ ++ [w]) (rs₀ ++ rs) (by omega) n hn'
    rw [wrap_append, List.append_assoc, List.append_assoc] at this
    exact this

theorem parseback_complete (hv : ∀ ts, v ≠ .amp :: ts) : ∀ (m : ℕ) (c : Cmd Text) (n : ℕ),
    (List.replicate m Tok.amp ++ v).length < n →
    Toks.parseback n c (List.replicate m .amp ++ v) = .ok (backs m c, v)
  | 0, c, n, hn => by
    obtain ⟨n, rfl⟩ : ∃ m, n = m + 1 := ⟨n - 1, by omega⟩
    rw [List.replicate_zero, List.nil_append, Toks.parseback]
    · rfl
    · exact hv
  | m + 1, c, n, hn => by
    obtain ⟨n, rfl⟩ : ∃ m, n = m + 1 := ⟨n - 1, by omega⟩
    rw [List.replicate_succ, List.cons_append, Toks.parseback]
    rw [List.replicate_succ, List.cons_append, List.length_cons] at hn
    exact parseback_complete hv m _ n (by omega)

/-- A `pipe` ends here. -/
def PipeEnds (v : List Tok) : Prop := ExecEnds v ∧ ∀ ts, v ≠ .bar :: ts

/-- A `line` ends here. -/
def LineEnds (v : List Tok) : Prop := ∀ k ∈ v.head?, k = .rpar

theorem lineEnds_rpar (v : List Tok) : LineEnds (.rpar :: v) := fun k hk => by cases hk; rfl

theorem LineEnds.pipeEnds (h : LineEnds v) : PipeEnds v := by
  cases v with
  | nil => exact ⟨by rintro _ ⟨⟩, by rintro _ ⟨⟩⟩
  | cons k v =>
    obtain rfl := h k rfl
    exact ⟨execEnds_cons rfl v, by rintro _ ⟨⟩⟩

theorem semi_ne_amp (v : List Tok) : ∀ ts, Tok.semi :: v ≠ .amp :: ts := (by rintro _ ⟨⟩)

theorem pipeEnds_semi (v : List Tok) : PipeEnds (.semi :: v) := ⟨execEnds_cons rfl v, by rintro _ ⟨⟩⟩

theorem pipeEnds_amp (m : ℕ) (h : PipeEnds v) :
    PipeEnds (List.replicate m .amp ++ v) := by
  cases m with
  | zero => exact h
  | succ m => exact ⟨execEnds_cons rfl _, by rintro _ ⟨⟩⟩

/-- A command that is not a block does not start with a parenthesis. -/
theorem Redirs.ne_lpar {u ts v : List Tok} {rs rs' : List Redir} (hu : Redirs u rs)
    (hts : Args ts ws rs') (hv : ExecEnds v) : ∀ us, u ++ ts ++ v ≠ .lpar :: us := by
  intro us h
  cases hu with
  | nil =>
    cases hts with
    | nil =>
      rw [List.nil_append, List.nil_append] at h
      have := hv .lpar (by rw [h]; rfl)
      cases this
    | cons => cases h
  | cons hk =>
    obtain rfl := (List.cons.inj h).1
    cases hk

mutual

theorem parseline_complete {u : List Tok} {c : Cmd Text} : Line u c → ∀ {v : List Tok}, LineEnds v →
    ∀ n, 4 * (u ++ v).length + 4 ≤ n → Toks.parseline n (u ++ v) = .ok (c, v)
  | .last m hp, v, hv, n, hn => by
    obtain ⟨n, rfl⟩ : ∃ m, n = m + 1 := ⟨n - 1, by omega⟩
    have hamp : ∀ ts, v ≠ .amp :: ts := fun ts h => by cases hv .amp (by rw [h]; rfl)
    have hsemi : ∀ ts, v ≠ .semi :: ts := fun ts h => by cases hv .semi (by rw [h]; rfl)
    rw [List.append_assoc] at hn ⊢
    rw [Toks.parseline, parsepipe_complete hp (pipeEnds_amp m hv.pipeEnds) n (by omega)]
    rw [List.length_append] at hn
    simp only [bind, Except.bind, parseback_complete hamp m _ n (by omega)]
    rfl
  | @Line.cons _ us _ _ m hp hl, v, hv, n, hn => by
    obtain ⟨n, rfl⟩ : ∃ m, n = m + 1 := ⟨n - 1, by omega⟩
    rw [List.append_assoc, List.append_assoc, List.cons_append] at hn ⊢
    rw [Toks.parseline,
      parsepipe_complete hp (pipeEnds_amp m (pipeEnds_semi _)) n (by omega)]
    rw [List.length_append] at hn
    simp only [bind, Except.bind, parseback_complete (semi_ne_amp (us ++ v)) m _ n (by omega)]
    rw [List.length_append, List.length_cons] at hn
    simp only [parseline_complete hl hv n (by omega)]
    rfl

theorem parsepipe_complete {u : List Tok} {c : Cmd Text} : Pipe u c → ∀ {v : List Tok}, PipeEnds v →
    ∀ n, 4 * (u ++ v).length + 3 ≤ n → Toks.parsepipe n (u ++ v) = .ok (c, v)
  | .last he, v, hv, n, hn => by
    obtain ⟨n, rfl⟩ : ∃ m, n = m + 1 := ⟨n - 1, by omega⟩
    rw [Toks.parsepipe, parseexec_complete he hv.1 n (by omega)]
    have hbar := hv.2
    simp only [bind, Except.bind]
    rfl
  | .cons he hp, v, hv, n, hn => by
    obtain ⟨n, rfl⟩ : ∃ m, n = m + 1 := ⟨n - 1, by omega⟩
    rw [List.append_assoc, List.cons_append] at hn ⊢
    rw [Toks.parsepipe, parseexec_complete he (execEnds_cons rfl _) n (by omega)]
    rw [List.length_append, List.length_cons] at hn
    simp only [bind, Except.bind, parsepipe_complete hp hv n (by omega)]
    rfl

theorem parseexec_complete {u : List Tok} {c : Cmd Text} : Exec u c → ∀ {v : List Tok}, ExecEnds v →
    ∀ n, 4 * (u ++ v).length + 2 ≤ n → Toks.parseexec n (u ++ v) = .ok (c, v)
  | .block hl hr, v, hv, n, hn => by
    obtain ⟨n, rfl⟩ : ∃ m, n = m + 2 := ⟨n - 2, by omega⟩
    rw [List.cons_append, List.append_assoc, List.cons_append] at hn ⊢
    rw [List.length_cons] at hn
    rw [Toks.parseexec, Toks.parseblock, parseline_complete hl (lineEnds_rpar _) n (by omega)]
    rw [List.length_append, List.length_cons] at hn
    simp only [bind, Except.bind]
    exact parseredirs_complete hr hv.noRedir _ n (by omega)
  | .simple hu ha hlen, v, hv, n, hn => by
    obtain ⟨n, rfl⟩ : ∃ m, n = m + 1 := ⟨n - 1, by omega⟩
    rw [Toks.parseexec_simple (hu.ne_lpar ha hv)]
    rw [List.append_assoc] at hn ⊢
    rw [parseredirs_complete hu (ha.noRedir hv) _ n (by omega)]
    rw [List.length_append] at hn
    exact parseargs_complete ha hv [] _ (by omega) n (by omega)

end

/-! ## The words in the text -/

/-- The C string at a position. -/
def Text.cstr (t : Text) (p : ℕ) : Text := (t.drop p).takeWhile (· ≠ 0)

theorem at_clear (t : Text) (i j : ℕ) : (t.clear i).at j = if j = i then 0 else t.at j := by
  simp only [Text.at, Text.clear, List.getD_eq_getElem?_getD, List.getElem?_set]
  split_ifs <;> simp_all

theorem nulterminate_eq (c : Cmd Span) (t : Text) :
    nulterminate c t = c.words.foldl (fun t w => t.clear w.2) t := by
  induction c generalizing t with
  | exec argv => rfl
  | redir c file mode fd ih => rw [nulterminate, ih, Cmd.words, List.foldl_append]; rfl
  | pipe l r ihl ihr | list l r ihl ihr => rw [nulterminate, ihr, ihl, Cmd.words, List.foldl_append]
  | back c ih => exact ih t

/-- The ends of the words are cleared, and nothing else. -/
theorem foldl_clear (ws : List Span) (t : Text) :
    (ws.foldl (fun t w => t.clear w.2) t).length = t.length ∧
      (∀ w ∈ ws, (ws.foldl (fun t w => t.clear w.2) t).at w.2 = 0) ∧
      ∀ i, (∀ w ∈ ws, w.2 ≠ i) → (ws.foldl (fun t w => t.clear w.2) t).at i = t.at i := by
  induction ws using List.reverseRecOn with
  | nil => exact ⟨rfl, by rintro _ ⟨⟩, fun _ _ => rfl⟩
  | append_singleton ws v ih =>
    obtain ⟨hlen, hends, hother⟩ := ih
    simp only [List.foldl_append, List.foldl_cons, List.foldl_nil, at_clear]
    refine ⟨by rw [Text.clear, List.length_set, hlen], fun w hw => ?_, fun i hi => ?_⟩
    · split_ifs with hwv
      · rfl
      · refine hends w ((List.mem_append.1 hw).resolve_right fun h => hwv ?_)
        rw [List.mem_singleton.1 h]
    · rw [if_neg (hi v (by simp)).symm, hother i fun w hw => hi w (by simp [hw])]

/-- **The words are read back** as they stood in the text. -/
theorem cstr_nulterminate {t : Text} (h0 : 0 ∉ t) {c : Cmd Span} (hc : c.Ok t) {w : Span}
    (hw : w ∈ c.words) : (nulterminate c t).cstr w.1 = t.span w := by
  obtain ⟨hlen, hends, hother⟩ := foldl_clear c.words t
  rw [← nulterminate_eq] at hlen hends hother
  obtain ⟨hle, hmax, hall, -⟩ := hc w hw
  -- no word ends inside of a word
  have hin : ∀ i, w.1 ≤ i → i < w.2 → (nulterminate c t).at i = t.at i := by
    intro i h1 h2
    refine hother i fun v hv heq => ?_
    subst heq
    exact (hc v hv).2.2.2 (by omega) (hall _ h1 h2)
  have hne : ∀ i, w.1 ≤ i → i < w.2 → decide ((nulterminate c t).at i ≠ 0) = true := by
    intro i h1 h2
    rw [hin i h1 h2]
    exact decide_eq_true (at_ne_zero h0 (by omega))
  have htake := (drop_takeWhile (t := nulterminate c t) (· ≠ 0) _ w.1 (Nat.add_sub_cancel' hle)
    (hlen ▸ hmax) hne fun _ => by simp [hends w hw]).2
  rw [Text.cstr, htake, Text.span]
  refine List.ext_getElem? fun j => ?_
  rw [List.getElem?_take, List.getElem?_take, List.getElem?_drop, List.getElem?_drop]
  split_ifs with hj
  · have := hin (w.1 + j) (by omega) (by omega)
    rw [Text.at, Text.at, List.getD_eq_getElem?_getD, List.getD_eq_getElem?_getD,
      List.getElem?_eq_getElem (by omega), List.getElem?_eq_getElem (by omega)] at this
    rw [List.getElem?_eq_getElem (by omega), List.getElem?_eq_getElem (by omega)]
    exact congrArg some this
  · rfl

theorem Cmd.map_congr {V W : Type} {f g : V → W} {c : Cmd V} (h : ∀ w ∈ c.words, f w = g w) :
    c.map f = c.map g := by
  induction c with
  | exec argv => exact congrArg Cmd.exec (List.map_congr_left h)
  | redir c file mode fd ih =>
    rw [map, map, ih fun w hw => h w (List.mem_append_left _ hw), h file (by simp [words])]
  | pipe l r ihl ihr | list l r ihl ihr =>
    rw [map, map, ihl fun w hw => h w (List.mem_append_left _ hw),
      ihr fun w hw => h w (List.mem_append_right _ hw)]
  | back c ih => rw [map, map, ih h]

/-! ## The main result -/

/-- The command with its words. -/
def Cmd.tree (t : Text) (c : Cmd Span) : Cmd Text := c.map fun w => t.cstr w.1

theorem length_lex (s : Text) : (lex s).length ≤ s.length := by
  rw [lex_eq]
  split
  · exact Nat.zero_le _
  · rename_i k r h
    have h1 := next_length h
    have h2 := length_lex r
    rw [List.length_cons]
    omega
termination_by s.length

theorem parsecmd_of_error {fuel : ℕ} {e : Stop} (h : parseline s fuel 0 = .error e) :
    parsecmd fuel s = .error e := by
  unfold parsecmd
  rw [h]
  rfl

/-- At the end there must be nothing left over. -/
theorem parsecmd_of_ok {fuel ps : ℕ} {cmd : Cmd Span} (h : parseline s fuel 0 = .ok (cmd, ps)) :
    parsecmd fuel s =
      if skipws s ps = s.length then .ok (cmd, nulterminate cmd s) else .error (.panic "syntax") := by
  unfold parsecmd
  rw [h]
  by_cases hps : skipws s ps = s.length
  all_goals
    simp [bind, Except.bind, peek, hps]
    rfl

/-- What is accepted is derived, and its words are words of the text. -/
theorem parsecmd_sound (h0 : 0 ∉ s) {fuel : ℕ} {cmd : Cmd Span} {t : Text}
    (h : parsecmd fuel s = .ok (cmd, t)) :
    t = nulterminate cmd s ∧ cmd.Ok s ∧ Line (lex s) (cmd.map s.span) := by
  have hsim := (sim_parse h0 fuel).1 0 (Nat.zero_le _)
  rw [List.drop_zero] at hsim
  generalize hx : parseline s fuel 0 = x at hsim
  generalize hy : Toks.parseline fuel (lex s) = y at hsim
  cases hsim with
  | error e =>
    rw [parsecmd_of_error hx] at h
    cases h
  | @ok cmd' ps ts hok hle hts =>
    rw [parsecmd_of_ok hx] at h
    split_ifs at h with hps
    cases h
    have hnil : ts = [] := by
      rw [← hts, lex_eq]
      rcases at_skipws (t := s) (s := ps) with ⟨-, hn⟩ | ⟨hlt, -, -⟩
      · rw [hn]
      · omega
    subst hnil
    obtain ⟨u, hu, hline⟩ := (parse_sound fuel).1 hy
    rw [List.append_nil] at hu
    rw [← hu] at hline
    exact ⟨rfl, hok, hline⟩

/-- **The parser accepts exactly its grammar**, and returns the command of the derivation. -/
theorem parsecmd_iff_line {s : Text} (h0 : 0 ∉ s) : ∃ N, ∀ fuel, N ≤ fuel →
    parsecmd fuel s ≠ .error .fuel ∧
    ∀ c, (∃ cmd t, parsecmd fuel s = .ok (cmd, t) ∧ cmd.tree t = c) ↔ Line (lex s) c := by
  refine ⟨4 * s.length + 4, fun fuel hfuel => ?_⟩
  have hlen := length_lex s
  have hsim := (sim_parse h0 fuel).1 0 (Nat.zero_le _)
  rw [List.drop_zero] at hsim
  have hreturns := (returns_parse fuel).1 (lex s) (by omega)
  have hcomplete : ∀ c, Line (lex s) c → Toks.parseline fuel (lex s) = .ok (c, []) := by
    intro c hc
    have := parseline_complete hc (v := []) (by rintro _ ⟨⟩) fuel (by simp; omega)
    rwa [List.append_nil] at this
  generalize hx : parseline s fuel 0 = x at hsim
  generalize hy : Toks.parseline fuel (lex s) = y at hsim hreturns hcomplete
  cases hsim with
  | error e =>
    rw [parsecmd_of_error hx]
    refine ⟨fun h => hreturns.1 ?_, fun c => iff_of_false ?_ fun hc => ?_⟩
    · exact congrArg _ (Except.error.inj h)
    · rintro ⟨cmd, t, h, -⟩
      cases h
    · cases hcomplete c hc
  | @ok cmd ps ts hok hle hts =>
    have hnil : skipws s ps = s.length ↔ ts = [] := by
      rw [← hts, lex_eq]
      have hle' := skipws_le hle
      rcases at_skipws (t := s) (s := ps) with ⟨hge, hn⟩ | ⟨hlt, -, hn⟩
      · rw [hn]
        exact iff_of_true (by omega) rfl
      · rw [hn]
        exact iff_of_false (by omega) (by rintro ⟨⟩)
    have htree : cmd.tree (nulterminate cmd s) = cmd.map s.span :=
      Cmd.map_congr fun w hw => cstr_nulterminate h0 hok hw
    rw [parsecmd_of_ok hx]
    by_cases hps : skipws s ps = s.length
    · rw [if_pos hps]
      obtain rfl := hnil.1 hps
      refine ⟨by rintro ⟨⟩, fun c => ⟨?_, fun hc => ⟨cmd, nulterminate cmd s, rfl, ?_⟩⟩⟩
      · rintro ⟨cmd', t, h, rfl⟩
        cases h
        rw [htree]
        exact (parsecmd_sound h0 ((parsecmd_of_ok hx).trans (if_pos hps))).2.2
      · have := hcomplete c hc
        cases this
        exact htree
    · rw [if_neg hps]
      refine ⟨by rintro ⟨⟩, fun c => iff_of_false ?_ fun hc => hps (hnil.2 ?_)⟩
      · rintro ⟨cmd', t, h, -⟩
        cases h
      · cases hcomplete c hc
        rfl

-- The line "a|b&" is a pipe of two words in the background.
theorem parsecmd_iff_line_pipe : (0 : UInt8) ∉ [97, 124, 98, 38] ∧ ∃ N, ∀ fuel, N ≤ fuel →
    ∃ cmd t, parsecmd fuel [97, 124, 98, 38] = .ok (cmd, t) ∧
      cmd.tree t = .back (.pipe (.exec [[97]]) (.exec [[98]])) := by
  have h0 : (0 : UInt8) ∉ [97, 124, 98, 38] := by decide
  have hlex : lex [97, 124, 98, 38] = [.word [97], .bar, .word [98], .amp] := by
    simp [lex_eq, next, token, Tok.ofChar, strchr, whitespace, symbols, isWord, chr, List.dropWhile,
      List.takeWhile]
  have hword : ∀ w, Exec [.word w] (.exec [w]) := fun w =>
    .simple .nil (.cons .nil .nil) (by simp [MAXARGS])
  obtain ⟨N, hN⟩ := parsecmd_iff_line h0
  refine ⟨h0, N, fun fuel hfuel => ((hN fuel hfuel).2 _).2 ?_⟩
  rw [hlex]
  exact .last 1 (.cons (hword [97]) (.last (hword [98])))

end Sh

end Xv6
