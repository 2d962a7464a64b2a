/-
  The descriptors of the processes that run a command (`runcmd` in `sh.c`).

  Every process is at a node of the command tree.  `Proc.next` is one system
  call of `runcmd`, with the process that it forks; calls that fail, and what
  `runcmd` does then, are left out.  A program that has been executed may do
  with its descriptors what it likes.  `At root a c σ` says what the
  descriptors 0, 1 and 2 stand for at the node `c`, which is found at `a`: a
  redirection or a pipe replaces one of them for the commands below it.  The
  invariant is that the calls that a process still has to make lead to these
  three descriptors and no other (`Good`).
-/
import Mathlib.Data.List.Infix
import Mathlib.Logic.Function.Basic
import Xv6.Io.File
import Xv6.Lib.Reach
import Xv6.User.Sh

namespace Xv6

open Function Transition

namespace Sh

/-- The way from a command to one of its parts. -/
inductive Dir where
  | left
  | right
  | sub
  deriving DecidableEq

/-- The place of a command in the whole tree. -/
abbrev Addr := List Dir

/-- What a descriptor refers to. -/
inductive Obj where
  /-- what descriptor `fd` was in the beginning -/
  | init (fd : ℕ)
  /-- the read or the write end of the pipe of a `PIPE` node -/
  | pipe (node : Addr) (write : Bool)
  /-- the file of a `REDIR` node -/
  | file (node : Addr)
  /-- something opened by a program -/
  | other
  deriving DecidableEq

abbrev Fds := ℕ → Option Obj

/-- The lowest free descriptor. -/
def lowest (f : Fds) : Option ℕ := (List.range NOFILE).find? fun fd => f fd = none

/-! ## `runcmd` -/

inductive Call where
  | close (fd : ℕ)
  | dup (fd : ℕ)
  | open (node : Addr)
  | wait
  deriving DecidableEq

/-- The descriptors after a call that succeeds. -/
def Call.exec (f : Fds) : Call → Option Fds
  | close fd => if f fd = none then none else some (update f fd none)
  | dup fd => (f fd).bind fun o => (lowest f).map fun n => update f n (some o)
  | .open node => (lowest f).map fun n => update f n (some (.file node))
  | wait => some f

/-- What follows a sequence of calls. -/
inductive Cont (W : Type) where
  | run (c : Cmd W)
  | exit

inductive Pc (W : Type) where
  | calls (todo : List Call) (k : Cont W)
  /-- before the first and the second `fork1` of a `PIPE` -/
  | forkLeft (l r : Cmd W) (p0 p1 : ℕ)
  | forkRight (r : Cmd W) (p0 p1 : ℕ)
  /-- `exec` has replaced the shell -/
  | user
  | exited
  | reaped

structure Proc (W : Type) where
  addr : Addr
  pc : Pc W
  fds : Fds
  parent : ℕ

/-- A process enters `runcmd`. -/
abbrev Pc.run {W : Type} (c : Cmd W) : Pc W := calls [] (.run c)

section
variable {W : Type}

/-- `runcmd(cmd)` up to its first system call, which may be a `fork1`: the process goes on, and
there may be a child. -/
def Proc.runcmd (p : Proc W) : Cmd W → Option (Proc W × Option (Proc W))
  | .exec argv => some (if argv = [] then { p with pc := .calls [] .exit } else { p with pc := .user },
      none)
  | .redir c _ _ fd =>
    some ({ p with addr := p.addr ++ [.sub], pc := .calls [.close fd, .open p.addr] (.run c) }, none)
  | .list l r =>
    some ({ p with addr := p.addr ++ [.right], pc := .calls [.wait] (.run r) },
      some { p with addr := p.addr ++ [.left], pc := .run l })
  | .pipe l r =>
    (lowest p.fds).bind fun p0 =>
      let f := update p.fds p0 (some (.pipe p.addr false))
      (lowest f).map fun p1 =>
        ({ p with
          pc := .forkLeft l r p0 p1, fds := update f p1 (some (.pipe p.addr true)) }, none)
  | .back c =>
    some ({ p with pc := .calls [] .exit }, some { p with addr := p.addr ++ [.sub], pc := .run c })

/-- One system call of the shell, other than `wait`. -/
def Proc.next (p : Proc W) : Option (Proc W × Option (Proc W)) :=
  match p.pc with
  | .calls (.wait :: _) _ => none
  | .calls (x :: xs) k => (x.exec p.fds).map fun f => ({ p with pc := .calls xs k, fds := f }, none)
  | .calls [] (.run c) => p.runcmd c
  | .calls [] .exit => some ({ p with pc := .exited, fds := fun _ => none }, none)
  | .forkLeft l r p0 p1 =>
    some ({ p with pc := .forkRight r p0 p1 },
      some { p with
        addr := p.addr ++ [.left]
        pc := .calls [.close 1, .dup p1, .close p0, .close p1] (.run l) })
  | .forkRight r p0 p1 =>
    some ({ p with pc := .calls [.close p0, .close p1, .wait, .wait] .exit },
      some { p with
        addr := p.addr ++ [.right]
        pc := .calls [.close 0, .dup p0, .close p0, .close p1] (.run r) })
  | .user | .exited | .reaped => none

/-- A step of process `n`.  A program can close, duplicate and open descriptors, fork and exit. -/
inductive Step : List (Proc W) → ℕ → List (Proc W) → Prop
  | shell {ps : List (Proc W)} {n : ℕ} {p p' : Proc W} {q : Option (Proc W)} :
      ps[n]? = some p → p.next = some (p', q) →
      Step ps n (ps.set n p' ++ (q.map fun q => { q with parent := n }).toList)
  | wait {ps : List (Proc W)} {n m : ℕ} {p q : Proc W} {xs : List Call} {k : Cont W} :
      ps[n]? = some p → p.pc = .calls (.wait :: xs) k →
      ps[m]? = some q → q.parent = n → q.pc = .exited → m ≠ n →
      Step ps n ((ps.set m { q with pc := .reaped }).set n { p with pc := .calls xs k })
  | user {ps : List (Proc W)} {n : ℕ} {p : Proc W} {f : Fds} : ps[n]? = some p → p.pc = .user →
      (∀ fd o, f fd = some o → o = .other ∨ ∃ fd', p.fds fd' = some o) →
      Step ps n (ps.set n { p with fds := f })
  | fork {ps : List (Proc W)} {n : ℕ} {p : Proc W} : ps[n]? = some p → p.pc = .user →
      Step ps n (ps ++ [{ p with parent := n }])
  | exit {ps : List (Proc W)} {n : ℕ} {p : Proc W} : ps[n]? = some p → p.pc = .user →
      Step ps n (ps.set n { p with pc := .exited, fds := fun _ => none })

/-- The descriptors 0, 1 and 2, and no others. -/
def base (σ : ℕ → Obj) : Fds := fun fd => if fd < 3 then some (σ fd) else none

/-- One process runs the command. -/
def Starts (root : Cmd W) (ps : List (Proc W)) : Prop := ps = [⟨[], .run root, base .init, 0⟩]

/-! ## The descriptors at a node -/

/-- The command at `a` is `c`, and `σ` are the descriptors 0, 1 and 2 with which it runs. -/
inductive At (root : Cmd W) : Addr → Cmd W → (ℕ → Obj) → Prop
  | root : At root [] root .init
  | redir {a : Addr} {c : Cmd W} {w : W} {m : Mode} {fd : ℕ} {σ : ℕ → Obj} :
      At root a (.redir c w m fd) σ → At root (a ++ [.sub]) c (update σ fd (.file a))
  | pipeLeft {a : Addr} {l r : Cmd W} {σ : ℕ → Obj} : At root a (.pipe l r) σ →
      At root (a ++ [.left]) l (update σ 1 (.pipe a true))
  | pipeRight {a : Addr} {l r : Cmd W} {σ : ℕ → Obj} : At root a (.pipe l r) σ →
      At root (a ++ [.right]) r (update σ 0 (.pipe a false))
  | listLeft {a : Addr} {l r : Cmd W} {σ : ℕ → Obj} : At root a (.list l r) σ →
      At root (a ++ [.left]) l σ
  | listRight {a : Addr} {l r : Cmd W} {σ : ℕ → Obj} : At root a (.list l r) σ →
      At root (a ++ [.right]) r σ
  | back {a : Addr} {c : Cmd W} {σ : ℕ → Obj} : At root a (.back c) σ → At root (a ++ [.sub]) c σ

/-- The end of a pipe is with the commands on its side of the pipe. -/
def side (write : Bool) : Dir := if write then .left else .right

variable {σ : ℕ → Obj} {fd : ℕ} {e : Bool} {f : Fds}

theorem At.pipe_below {root : Cmd W} {a : Addr} {c : Cmd W} (h : At root a c σ) {b : Addr}
    (hfd : σ fd = .pipe b e) : b ++ [side e] <+: a := by
  induction h with
  | root => cases hfd
  | @redir a c w m fd' σ _ ih =>
    rw [update_apply] at hfd
    split_ifs at hfd
    exact (ih hfd).trans (List.prefix_append _ _)
  | @pipeLeft a l r σ _ ih =>
    rw [update_apply] at hfd
    split_ifs at hfd
    · cases hfd
      exact List.prefix_rfl
    · exact (ih hfd).trans (List.prefix_append _ _)
  | @pipeRight a l r σ _ ih =>
    rw [update_apply] at hfd
    split_ifs at hfd
    · cases hfd
      exact List.prefix_rfl
    · exact (ih hfd).trans (List.prefix_append _ _)
  | listLeft _ ih | listRight _ ih | back _ ih => exact (ih hfd).trans (List.prefix_append _ _)

/-! ## Sequences of calls -/

/-- The descriptors after all of the calls. -/
def runCalls : List Call → Fds → Option Fds
  | [], f => some f
  | x :: xs, f => (x.exec f).bind (runCalls xs)

/-- The two ends of the pipe of node `a`. -/
def piped (σ : ℕ → Obj) (a : Addr) : Fds :=
  update (update (base σ) 3 (some (.pipe a false))) 4 (some (.pipe a true))

theorem lowest_eq {n : ℕ} (hn : n < NOFILE) (h : f n = none) (hlt : ∀ m < n, f m ≠ none) :
    lowest f = some n := by
  rw [lowest, List.find?_range_eq_some]
  refine ⟨decide_eq_true h, List.mem_range.2 hn, fun m hm => ?_⟩
  simpa using hlt m hm

theorem base_lt (h : fd < 3) : base σ fd = some (σ fd) := if_pos h

theorem base_ge (h : 3 ≤ fd) : base σ fd = none := if_neg (Nat.not_lt.2 h)

/-- One of the three descriptors is replaced. -/
theorem base_update (σ : ℕ → Obj) (h : fd < 3) (o : Obj) :
    update (base σ) fd (some o) = base (update σ fd o) := by
  funext fd'
  rw [base, update_apply, update_apply]
  by_cases hfd : fd' = fd
  · rw [if_pos hfd, if_pos hfd, if_pos (hfd ▸ h)]
  · rw [if_neg hfd, if_neg hfd, base]

/-- A descriptor that is closed is the lowest one when those below it are open. -/
theorem lowest_closed (hfd : fd < NOFILE) (h : ∀ m < fd, f m ≠ none) :
    lowest (update f fd none) = some fd := by
  refine lowest_eq hfd (update_self ..) fun m hm => ?_
  rw [update_of_ne hm.ne]
  exact h m hm

theorem lowest_base (σ : ℕ → Obj) : lowest (base σ) = some 3 :=
  lowest_eq (by decide) (base_ge le_rfl) fun m hm => by rw [base_lt hm]; rintro ⟨⟩

theorem lowest_base_pipe (σ : ℕ → Obj) (o : Obj) :
    lowest (update (base σ) 3 (some o)) = some 4 := by
  refine lowest_eq (by decide) ?_ fun m hm => ?_
  · rw [update_of_ne (by decide)]
    exact base_ge (by decide)
  · by_cases h3 : m = 3
    · rw [h3, update_self]
      rintro ⟨⟩
    · rw [update_of_ne h3, base_lt (by omega)]
      rintro ⟨⟩

/-- If the calls succeed, they lead to the descriptors 0, 1 and 2. -/
def Leads (todo : List Call) (f : Fds) (σ : ℕ → Obj) : Prop :=
  ∀ f', runCalls todo f = some f' → f' = base σ

theorem Leads.nil (h : Leads [] f σ) : f = base σ := h f rfl

theorem Leads.cons {x : Call} {xs : List Call} {f f' : Fds} (h : Leads (x :: xs) f σ)
    (hx : x.exec f = some f') : Leads xs f' σ := fun f'' hf'' => h f'' (by
  rw [runCalls, hx]
  exact hf'')

theorem leads_redir (σ : ℕ → Obj) (fd : ℕ) (a : Addr) :
    Leads [.close fd, .open a] (base σ) (update σ fd (.file a)) := by
  intro f' hf'
  by_cases hfd : fd < 3
  · have hlow := lowest_closed (f := base σ) (hfd.trans (by decide)) fun m hm => by
      rw [base_lt (by omega)]
      rintro ⟨⟩
    simp only [runCalls, Call.exec, base_lt hfd, if_neg (Option.some_ne_none _), hlow,
      Option.map_some, Option.bind_some, Option.some.injEq] at hf'
    rw [← hf', update_idem, base_update σ hfd]
  · simp only [runCalls, Call.exec, base_ge (Nat.not_lt.1 hfd), if_true, Option.bind_none] at hf'
    cases hf'

theorem piped_three (σ : ℕ → Obj) (a : Addr) : piped σ a 3 = some (.pipe a false) := by
  rw [piped, update_of_ne (by decide), update_self]

theorem piped_four (σ : ℕ → Obj) (a : Addr) : piped σ a 4 = some (.pipe a true) :=
  update_self ..

theorem piped_of_ne (σ : ℕ → Obj) (a : Addr) (h3 : fd ≠ 3) (h4 : fd ≠ 4) :
    piped σ a fd = base σ fd := by
  rw [piped, update_of_ne h4, update_of_ne h3]

/-- Both ends of the pipe are closed. -/
theorem runCalls_close {g : Fds} {a : Addr} (h3 : g 3 = some (.pipe a false))
    (h4 : g 4 = some (.pipe a true)) (h : ∀ fd, fd ≠ 3 → fd ≠ 4 → g fd = base σ fd)
    (xs : List Call) : runCalls (.close 3 :: .close 4 :: xs) g = runCalls xs (base σ) := by
  have hg : update (update g 3 none) 4 none = base σ := by
    funext fd
    by_cases hfd4 : fd = 4
    · rw [hfd4, update_self, base_ge (by decide)]
    · rw [update_of_ne hfd4]
      by_cases hfd3 : fd = 3
      · rw [hfd3, update_self, base_ge le_rfl]
      · rw [update_of_ne hfd3, h fd hfd3 hfd4]
  have h4' : update g 3 none 4 = some (.pipe a true) := by
    rw [update_of_ne (by decide), h4]
  simp only [runCalls, Call.exec, h3, h4', if_neg (Option.some_ne_none _), Option.bind_some, hg]

/-- The parent closes both ends of the pipe. -/
theorem leads_shell (σ : ℕ → Obj) (a : Addr) :
    Leads [.close 3, .close 4, .wait, .wait] (piped σ a) σ := by
  intro f' hf'
  rw [runCalls_close (piped_three σ a) (piped_four σ a) fun fd => piped_of_ne σ a] at hf'
  exact (Option.some.inj hf').symm

/-- A child replaces descriptor `fd` by its end of the pipe. -/
theorem leads_child (σ : ℕ → Obj) (a : Addr) {fd src : ℕ} (hfd : fd < 3)
    (hsrc : piped σ a src = some (.pipe a e)) (h3 : 3 ≤ src) :
    Leads [.close fd, .dup src, .close 3, .close 4] (piped σ a)
      (update σ fd (.pipe a e)) := by
  intro f' hf'
  have hopen : ∀ m ≤ fd, piped σ a m ≠ none := fun m hm => by
    rw [piped_of_ne σ a (by omega) (by omega), base_lt (by omega)]
    rintro ⟨⟩
  have hlow := lowest_closed (hfd.trans (by decide)) fun m hm => hopen m (Nat.le_of_lt hm)
  have hsrc' : update (piped σ a) fd none src = some (.pipe a e) := by
    rw [update_of_ne (by omega), hsrc]
  have hclose : runCalls [.close 3, .close 4] (update (piped σ a) fd (some (.pipe a e))) =
      some (base (update σ fd (.pipe a e))) := by
    refine runCalls_close (a := a) ?_ ?_ (fun m hm3 hm4 => ?_) []
    · rw [update_of_ne (by omega), piped_three]
    · rw [update_of_ne (by omega), piped_four]
    · rw [← base_update σ hfd, update_apply, update_apply,
        piped_of_ne σ a hm3 hm4]
  rw [runCalls, Call.exec, if_neg (hopen fd le_rfl), Option.bind_some, runCalls, Call.exec, hsrc',
    Option.bind_some, hlow, Option.map_some, Option.bind_some, update_idem, hclose] at hf'
  exact (Option.some.inj hf').symm

/-- No call makes a new end of a pipe. -/
theorem Call.exec_pipe {x : Call} {f f' : Fds} (h : x.exec f = some f') {b : Addr}
    (hfd : f' fd = some (.pipe b e)) : ∃ fd', f fd' = some (.pipe b e) := by
  cases x with
  | close n =>
    rw [exec] at h
    split_ifs at h
    cases h
    rw [update_apply] at hfd
    split_ifs at hfd
    exact ⟨fd, hfd⟩
  | dup n =>
    obtain ⟨o, ho, h⟩ := Option.bind_eq_some_iff.1 h
    obtain ⟨m, -, rfl⟩ := Option.map_eq_some_iff.1 h
    rw [update_apply] at hfd
    split_ifs at hfd
    · exact ⟨n, ho.trans hfd⟩
    · exact ⟨fd, hfd⟩
  | «open» a =>
    obtain ⟨m, -, rfl⟩ := Option.map_eq_some_iff.1 h
    rw [update_apply] at hfd
    split_ifs at hfd
    · cases hfd
    · exact ⟨fd, hfd⟩
  | wait =>
    cases h
    exact ⟨fd, hfd⟩

/-! ## The invariant -/

/-- A process on its way through `runcmd`. -/
inductive Good (root : Cmd W) : Proc W → Prop
  | run {a : Addr} {c : Cmd W} {σ : ℕ → Obj} {f : Fds} {todo : List Call} {n : ℕ} :
      At root a c σ → Leads todo f σ →
      (∀ {fd b}, f fd = some (.pipe b true) → b ++ [.left] <+: a ∨ a = b ++ [.right]) →
      Good root ⟨a, .calls todo (.run c), f, n⟩
  | exit {a : Addr} {c : Cmd W} {σ : ℕ → Obj} {f : Fds} {todo : List Call} {n : ℕ} :
      At root a c σ → Leads todo f σ → todo <:+ [.close 3, .close 4, .wait, .wait] →
      (∀ {fd b}, f fd = some (.pipe b true) → b ++ [.left] <+: a ∨ b = a) →
      Good root ⟨a, .calls todo .exit, f, n⟩
  | forkLeft {a : Addr} {l r : Cmd W} {σ : ℕ → Obj} {n : ℕ} : At root a (.pipe l r) σ →
      Good root ⟨a, .forkLeft l r 3 4, piped σ a, n⟩
  | forkRight {a : Addr} {l r : Cmd W} {σ : ℕ → Obj} {n : ℕ} : At root a (.pipe l r) σ →
      Good root ⟨a, .forkRight r 3 4, piped σ a, n⟩
  | user {a : Addr} {c : Cmd W} {σ : ℕ → Obj} {f : Fds} {n : ℕ} : At root a c σ →
      (∀ {fd b e}, f fd = some (.pipe b e) → b ++ [side e] <+: a) → Good root ⟨a, .user, f, n⟩
  | exited {a : Addr} {n : ℕ} : Good root ⟨a, .exited, fun _ => none, n⟩
  | reaped {a : Addr} {n : ℕ} : Good root ⟨a, .reaped, fun _ => none, n⟩

section
variable {root : Cmd W} {a b : Addr} {c : Cmd W} {σ : ℕ → Obj} {n : ℕ}

variable {fd : ℕ} {e : Bool} {p : Proc W}

theorem At.base_pipe (h : At root a c σ) (hfd : base σ fd = some (.pipe b e)) :
    b ++ [side e] <+: a := by
  rw [base] at hfd
  split_ifs at hfd
  exact h.pipe_below (Option.some.inj hfd)

/-- A process that starts with a command. -/
theorem Good.start (h : At root a c σ) : Good root ⟨a, .run c, base σ, n⟩ :=
  .run h (fun _ hf => (Option.some.inj hf).symm) fun hfd => .inl (h.base_pipe hfd)

/-- A process that has nothing left to do. -/
theorem Good.stop (h : At root a c σ) : Good root ⟨a, .calls [] .exit, base σ, n⟩ :=
  .exit h (fun _ hf => (Option.some.inj hf).symm) (List.nil_suffix) fun hfd =>
    .inl (h.base_pipe hfd)

theorem At.piped_pipe (h : At root a c σ) (hfd : piped σ a fd = some (.pipe b e)) :
    b ++ [side e] <+: a ∨ b = a := by
  by_cases h4 : fd = 4
  · rw [h4, piped_four] at hfd
    cases hfd
    exact .inr rfl
  · by_cases h3 : fd = 3
    · rw [h3, piped_three] at hfd
      cases hfd
      exact .inr rfl
    · rw [piped_of_ne σ a h3 h4] at hfd
      exact .inl (h.base_pipe hfd)

/-- `runcmd` keeps the invariant. -/
theorem Good.runcmd (h : At root a c σ) {p' : Proc W} {q : Option (Proc W)}
    (hrun : Proc.runcmd ⟨a, .run c, base σ, n⟩ c = some (p', q)) :
    Good root p' ∧ ∀ q', q = some q' → Good root q' := by
  cases c with
  | exec argv =>
    cases hrun
    refine ⟨?_, by rintro _ ⟨⟩⟩
    split_ifs
    · exact .stop h
    · exact .user h h.base_pipe
  | redir c w m fd =>
    cases hrun
    refine ⟨.run h.redir (leads_redir σ fd a) fun hfd => .inl ?_, by rintro _ ⟨⟩⟩
    exact (h.base_pipe hfd).trans (List.prefix_append _ _)
  | pipe l r =>
    rw [Proc.runcmd, lowest_base, Option.bind_some] at hrun
    dsimp only at hrun
    rw [lowest_base_pipe, Option.map_some] at hrun
    cases hrun
    exact ⟨.forkLeft h, by rintro _ ⟨⟩⟩
  | list l r =>
    cases hrun
    refine ⟨.run h.listRight (fun _ hf => (Option.some.inj hf).symm) fun hfd => .inl ?_, ?_⟩
    · exact (h.base_pipe hfd).trans (List.prefix_append _ _)
    · rintro q' ⟨⟩
      exact .start h.listLeft
  | back c =>
    cases hrun
    refine ⟨.stop h, ?_⟩
    rintro q' ⟨⟩
    exact .start h.back

/-- **One step of a process** keeps the invariant. -/
theorem Good.next {p p' : Proc W} {q : Option (Proc W)} (h : Good root p)
    (hn : p.next = some (p', q)) : Good root p' ∧ ∀ q', q = some q' → Good root q' := by
  cases h with
  | @run a c σ f todo n hat hlead hpipe =>
    match todo with
    | [] =>
      obtain rfl := hlead.nil
      exact Good.runcmd hat hn
    | .wait :: xs => cases hn
    | .close _ :: xs | .dup _ :: xs | .open _ :: xs =>
      obtain ⟨f', hf', heq⟩ := Option.map_eq_some_iff.1 hn
      cases heq
      refine ⟨.run hat (hlead.cons hf') fun hfd => ?_, by rintro _ ⟨⟩⟩
      obtain ⟨fd', hfd'⟩ := Call.exec_pipe hf' hfd
      exact hpipe hfd'
  | @exit a c σ f todo n hat hlead hsuf hpipe =>
    match todo with
    | [] =>
      cases hn
      exact ⟨.exited, by rintro _ ⟨⟩⟩
    | .wait :: xs => cases hn
    | .close _ :: xs | .dup _ :: xs | .open _ :: xs =>
      obtain ⟨f', hf', heq⟩ := Option.map_eq_some_iff.1 hn
      cases heq
      refine ⟨.exit hat (hlead.cons hf') ((List.suffix_cons _ _).trans hsuf) fun hfd => ?_, by rintro _ ⟨⟩⟩
      obtain ⟨fd', hfd'⟩ := Call.exec_pipe hf' hfd
      exact hpipe hfd'
  | @forkLeft a l r σ n hat =>
    cases hn
    refine ⟨.forkRight hat, ?_⟩
    rintro q' ⟨⟩
    refine .run hat.pipeLeft (leads_child σ a (by decide) (piped_four σ a) (by decide)) fun hfd => ?_
    rcases hat.piped_pipe hfd with hpre | rfl
    · exact .inl (hpre.trans (List.prefix_append _ _))
    · exact .inl List.prefix_rfl
  | @forkRight a l r σ n hat =>
    cases hn
    refine ⟨.exit hat (leads_shell σ a) List.suffix_rfl hat.piped_pipe, ?_⟩
    rintro q' ⟨⟩
    refine .run hat.pipeRight (leads_child σ a (by decide) (piped_three σ a) le_rfl) fun hfd => ?_
    rcases hat.piped_pipe hfd with hpre | rfl
    · exact .inl (hpre.trans (List.prefix_append _ _))
    · exact .inr rfl
  | user => cases hn
  | exited => cases hn
  | reaped => cases hn

theorem Good.parent (h : Good root p) (n : ℕ) : Good root { p with parent := n } := by
  cases h with
  | run hat hlead hpipe => exact .run hat hlead hpipe
  | exit hat hlead hsuf hpipe => exact .exit hat hlead hsuf hpipe
  | forkLeft hat => exact .forkLeft hat
  | forkRight hat => exact .forkRight hat
  | user hat hpipe => exact .user hat hpipe
  | exited => exact .exited
  | reaped => exact .reaped

theorem Good.wait (h : Good root p) {xs : List Call} {k : Cont W}
    (hpc : p.pc = .calls (.wait :: xs) k) : Good root { p with pc := .calls xs k } := by
  cases h with
  | run hat hlead hpipe =>
    cases hpc
    exact .run hat (hlead.cons rfl) hpipe
  | exit hat hlead hsuf hpipe =>
    cases hpc
    exact .exit hat (hlead.cons rfl) ((List.suffix_cons _ _).trans hsuf) hpipe
  | _ => cases hpc

/-- All processes stay on their way. -/
theorem Step.good {ps ps' : List (Proc W)} (h : ∀ p ∈ ps, Good root p) (hs : Step ps n ps') :
    ∀ p ∈ ps', Good root p := by
  have hset : ∀ {m p'}, Good root p' → ∀ {ps : List (Proc W)}, (∀ p ∈ ps, Good root p) →
      ∀ p ∈ ps.set m p', Good root p := fun hp' _ h p hp =>
    (List.mem_or_eq_of_mem_set hp).elim (h p) fun heq => heq ▸ hp'
  cases hs with
  | shell hp hn =>
    obtain ⟨hp', hq⟩ := (h _ (List.mem_of_getElem? hp)).next hn
    refine List.forall_mem_append.2 ⟨hset hp' h, fun q hq' => ?_⟩
    obtain ⟨q₀, hq₀, rfl⟩ := Option.map_eq_some_iff.1 (Option.mem_toList.1 hq')
    exact (hq q₀ hq₀).parent n
  | wait hp hpc hq _ hex _ =>
    refine hset ((h _ (List.mem_of_getElem? hp)).wait hpc) (hset ?_ h)
    have hgood := h _ (List.mem_of_getElem? hq)
    cases hgood <;> cases hex
    exact .reaped
  | user hp hpc hf =>
    refine hset ?_ h
    have hgood := h _ (List.mem_of_getElem? hp)
    cases hgood <;> cases hpc
    rename_i hat hpipe
    refine .user hat fun hfd => ?_
    rcases hf _ _ hfd with heq | ⟨fd', hfd'⟩
    · cases heq
    · exact hpipe hfd'
  | fork hp _ =>
    exact List.forall_mem_append.2 ⟨h, List.forall_mem_singleton.2
      ((h _ (List.mem_of_getElem? hp)).parent n)⟩
  | exit hp _ => exact hset .exited h

theorem Reach.good {ps : List (Proc W)} (h : Reach (Starts root) Step ps) :
    ∀ p ∈ ps, Good root p := by
  refine h.inv (fun ps hps => ?_) fun ps n ps' hps hs => hs.good hps
  rw [hps]
  exact List.forall_mem_singleton.2 (.start .root)

/-! ## Overridden descriptors -/

/-- The part of a command in a direction. -/
def Cmd.child : Cmd W → Dir → Option (Cmd W)
  | .redir c _ _ _, .sub => some c
  | .pipe l _, .left => some l
  | .pipe _ r, .right => some r
  | .list l _, .left => some l
  | .list _ r, .right => some r
  | .back c, .sub => some c
  | _, _ => none

/-- The part of a command at an address. -/
def Cmd.part (c : Cmd W) (a : Addr) : Option (Cmd W) := a.foldlM Cmd.child c

theorem At.part (h : At root a c σ) : root.part a = some c := by
  induction h with
  | root => rfl
  | redir _ ih | pipeLeft _ ih | pipeRight _ ih | listLeft _ ih | listRight _ ih | back _ ih =>
    rw [Cmd.part, List.foldlM_append, ← Cmd.part, ih]
    rfl

/-- The command replaces descriptor `fd` for its part in a direction. -/
def Cmd.Overrides : Cmd W → Dir → ℕ → Prop
  | .redir _ _ _ fd', _, fd => fd' = fd
  | .pipe _ _, .left, fd => fd = 1
  | .pipe _ _, .right, fd => fd = 0
  | _, _, _ => False

/-- The descriptor that an end of a pipe replaces. -/
def stdFd (write : Bool) : ℕ := if write then 1 else 0

/-- On the way from `a` to `b` no command replaces descriptor `fd`. -/
def Keeps (root : Cmd W) (a b : Addr) (fd : ℕ) : Prop :=
  ∀ x d c, a <+: x → x ++ [d] <+: b → root.part x = some c → ¬ c.Overrides d fd

/-- The last step of the way. -/
theorem Keeps.cases {d d' : Dir} (h : At root b c σ) (hab : a ++ [d'] <+: b ++ [d])
    (hk : Keeps root (a ++ [d']) (b ++ [d]) fd) :
    (a = b ∧ d' = d) ∨
      a ++ [d'] <+: b ∧ ¬ c.Overrides d fd ∧ Keeps root (a ++ [d']) b fd := by
  rcases List.prefix_concat_iff.1 hab with heq | hab
  · obtain ⟨rfl, hd⟩ := List.append_inj' heq rfl
    exact .inl ⟨rfl, List.singleton_inj.1 hd⟩
  · refine .inr ⟨hab, hk b d c hab List.prefix_rfl h.part, fun x d c hx hxb => ?_⟩
    exact hk x d c hx (hxb.trans (List.prefix_append _ _))

/-- An end of a pipe reaches all commands on its side, unless it is replaced on the way. -/
theorem At.pipe_end {l r : Cmd W} (ha : root.part a = some (.pipe l r)) (h : At root b c σ)
    (hab : a ++ [side e] <+: b) (hk : Keeps root (a ++ [side e]) b (stdFd e)) :
    σ (stdFd e) = .pipe a e := by
  induction h with
  | root => exact absurd (List.prefix_nil.1 hab) (by simp)
  | redir hat ih =>
    rcases hk.cases hat hab with ⟨rfl, -⟩ | ⟨hab, hno, hk⟩
    · rw [hat.part] at ha
      cases ha
    · rw [update_of_ne (Ne.symm hno), ih hab hk]
  | pipeLeft hat ih =>
    rcases hk.cases hat hab with ⟨rfl, he⟩ | ⟨hab, hno, hk⟩
    · cases e
      · cases he
      · exact update_self ..
    · rw [update_of_ne hno, ih hab hk]
  | pipeRight hat ih =>
    rcases hk.cases hat hab with ⟨rfl, he⟩ | ⟨hab, hno, hk⟩
    · cases e
      · exact update_self ..
      · cases he
    · rw [update_of_ne hno, ih hab hk]
  | listLeft hat ih | listRight hat ih | back hat ih =>
    rcases hk.cases hat hab with ⟨rfl, -⟩ | ⟨hab, -, hk⟩
    · rw [hat.part] at ha
      cases ha
    · exact ih hab hk

/-! ## The main result -/

/-- A process that enters `runcmd`. -/
theorem Good.at_run (h : Good root p) (hpc : p.pc = .run c) :
    ∃ σ, At root p.addr c σ ∧ p.fds = base σ := by
  cases h with
  | run hat hlead _ =>
    cases hpc
    exact ⟨_, hat, hlead.nil⟩
  | _ => cases hpc

/-- The calls that are left after both ends of a pipe are closed. -/
theorem Leads.waits {todo : List Call} {f : Fds} (h : Leads todo f σ)
    (hsuf : todo <:+ [.close 3, .close 4, .wait, .wait]) :
    (∃ fd xs, todo = .close fd :: xs) ∨ f = base σ := by
  simp only [List.suffix_cons_iff, List.suffix_nil] at hsuf
  rcases hsuf with rfl | rfl | rfl | rfl | rfl
  · exact .inl ⟨_, _, rfl⟩
  · exact .inl ⟨_, _, rfl⟩
  · exact .inr (h f rfl)
  · exact .inr (h f rfl)
  · exact .inr (h f rfl)

/-- A process that waits for the commands of a pipe. -/
theorem Good.at_wait (h : Good root p) {xs : List Call} (hpc : p.pc = .calls (.wait :: xs) .exit) :
    ∃ c σ, At root p.addr c σ ∧ p.fds = base σ := by
  cases h with
  | exit hat hlead hsuf _ =>
    cases hpc
    rcases hlead.waits hsuf with ⟨fd, xs, heq⟩ | rfl
    · cases heq
    · exact ⟨_, _, hat, rfl⟩
  | _ => cases hpc

/-- Who can hold the write end of a pipe. -/
theorem Good.holds (h : Good root p) (hfd : p.fds fd = some (.pipe a true)) :
    a ++ [.left] <+: p.addr ∧ p.pc ≠ .exited ∧ p.pc ≠ .reaped ∨
    p.addr = a ∧ ((∃ l r p0 p1, p.pc = .forkLeft l r p0 p1) ∨ (∃ r p0 p1, p.pc = .forkRight r p0 p1) ∨
      ∃ n xs, p.pc = .calls (.close n :: xs) .exit) ∨
    p.addr = a ++ [.right] ∧ ∃ x xs k, p.pc = .calls (x :: xs) (.run k) := by
  cases h with
  | @run b c σ f todo n hat hlead hpipe =>
    rcases hpipe hfd with hpre | rfl
    · exact .inl ⟨hpre, by rintro ⟨⟩, by rintro ⟨⟩⟩
    · cases todo with
      | nil =>
        obtain rfl := hlead.nil
        exact .inl ⟨hat.base_pipe hfd, by rintro ⟨⟩, by rintro ⟨⟩⟩
      | cons x xs => exact .inr (.inr ⟨rfl, x, xs, c, rfl⟩)
  | @exit b c σ f todo n hat hlead hsuf hpipe =>
    rcases hpipe hfd with hpre | rfl
    · exact .inl ⟨hpre, by rintro ⟨⟩, by rintro ⟨⟩⟩
    · rcases hlead.waits hsuf with ⟨m, xs, rfl⟩ | rfl
      · exact .inr (.inl ⟨rfl, .inr (.inr ⟨m, xs, rfl⟩)⟩)
      · exact .inl ⟨hat.base_pipe hfd, by rintro ⟨⟩, by rintro ⟨⟩⟩
  | forkLeft hat =>
    rcases hat.piped_pipe hfd with hpre | rfl
    · exact .inl ⟨hpre, by rintro ⟨⟩, by rintro ⟨⟩⟩
    · exact .inr (.inl ⟨rfl, .inl ⟨_, _, _, _, rfl⟩⟩)
  | forkRight hat =>
    rcases hat.piped_pipe hfd with hpre | rfl
    · exact .inl ⟨hpre, by rintro ⟨⟩, by rintro ⟨⟩⟩
    · exact .inr (.inl ⟨rfl, .inr (.inl ⟨_, _, _, rfl⟩)⟩)
  | user _ hpipe => exact .inl ⟨hpipe hfd, by rintro ⟨⟩, by rintro ⟨⟩⟩
  | exited => cases hfd
  | reaped => cases hfd

/-- **The shell leaks no descriptors into commands.**  Every `exec` has the descriptors 0, 1 and 2
only, and the ends of a pipe where it is not overridden; a process that waits for a pipe holds none
of its ends; and once it waits and the right command is running, the write end is with the
processes of the left command, so that it is closed when they have exited. -/
theorem runcmd_descriptors {ps : List (Proc W)} (hr : Reach (Starts root) Step ps) :
    (∀ p ∈ ps, ∀ argv, p.pc = .run (.exec argv) → (∀ fd, p.fds fd ≠ none ↔ fd < 3) ∧
      ∀ a l r e, root.part a = some (.pipe l r) → a ++ [side e] <+: p.addr →
        Keeps root (a ++ [side e]) p.addr (stdFd e) → p.fds (stdFd e) = some (.pipe a e)) ∧
    (∀ p ∈ ps, ∀ xs, p.pc = .calls (.wait :: xs) .exit →
      ∀ fd e, p.fds fd ≠ some (.pipe p.addr e)) ∧
    ∀ a, (∀ p ∈ ps, p.addr = a → (∃ xs, p.pc = .calls (.wait :: xs) .exit) ∨
        p.pc = .calls [] .exit ∨ p.pc = .exited ∨ p.pc = .reaped) →
      (∀ p ∈ ps, p.addr = a ++ [.right] → ∀ x xs k, p.pc ≠ .calls (x :: xs) (.run k)) →
      (∀ p ∈ ps, a ++ [.left] <+: p.addr → p.pc = .exited ∨ p.pc = .reaped) →
      ∀ p ∈ ps, ∀ fd, p.fds fd ≠ some (.pipe a true) := by
  have hgood := Reach.good hr
  refine ⟨fun p hp argv hpc => ?_, fun p hp xs hpc fd e hfd => ?_,
    fun a hwait hright hleft p hp fd hfd => ?_⟩
  · obtain ⟨σ, hat, hfds⟩ := (hgood p hp).at_run hpc
    rw [hfds]
    refine ⟨fun fd => ?_, fun a l r e ha hpre hk => ?_⟩
    · by_cases hlt : fd < 3
      · rw [base_lt hlt]
        exact iff_of_true (by rintro ⟨⟩) hlt
      · rw [base_ge (Nat.not_lt.1 hlt)]
        exact iff_of_false (fun h => h rfl) hlt
    · have hstd : stdFd e < 3 := by cases e <;> decide
      rw [base_lt hstd, hat.pipe_end ha hpre hk]
  · obtain ⟨c, σ, hat, hfds⟩ := (hgood p hp).at_wait hpc
    rw [hfds] at hfd
    have hlen := (hat.base_pipe hfd).length_le
    rw [List.length_append, List.length_singleton] at hlen
    omega
  · rcases (hgood p hp).holds hfd with ⟨hpre, hex, hre⟩ | ⟨ha, hbusy⟩ | ⟨ha, x, xs, k, hpc⟩
    · exact (hleft p hp hpre).elim hex hre
    · rcases hwait p hp ha with ⟨xs, h⟩ | h | h | h
      all_goals
        rw [h] at hbusy
        rcases hbusy with ⟨l, r, p0, p1, h⟩ | ⟨r, p0, p1, h⟩ | ⟨n, xs, h⟩ <;> cases h
    · exact hright p hp ha x xs k hpc

end

end

/-- The steps of the shell, to run them. -/
def shellStep {W : Type} (ps : List (Proc W)) (n : ℕ) : Option (List (Proc W)) :=
  ps[n]?.bind fun p => p.next.map fun (p', q) =>
    ps.set n p' ++ (q.map fun q => { q with parent := n }).toList

theorem step_of_shellStep {W : Type} (ps : List (Proc W)) (n : ℕ) (ps' : List (Proc W))
    (h : shellStep ps n = some ps') : Step ps n ps' := by
  obtain ⟨p, hp, h⟩ := Option.bind_eq_some_iff.1 h
  obtain ⟨⟨p', q⟩, hn, rfl⟩ := Option.map_eq_some_iff.1 h
  exact .shell hp hn

/-- The arguments of the `exec` that a process is about to make. -/
def Pc.argv {W : Type} : Pc W → Option (List W)
  | .calls [] (.run (.exec argv)) => some argv
  | _ => none

theorem Pc.eq_run {W : Type} {pc : Pc W} {argv : List W} (h : pc.argv = some argv) :
    pc = .run (.exec argv) := by
  unfold Pc.argv at h
  split at h
  · cases h
    rfl
  · cases h

/-- The left command of a pipe is about to be executed. -/
def execLeft : Reached (Reach (Starts (Cmd.pipe (.exec [0]) (.exec [1]))) Step)
    fun ps : List (Proc ℕ) => ps[1]?.map (fun p => (p.addr, p.pc.argv)) = some ([.left], some [0]) :=
  .ofRun _ step_of_shellStep rfl [0, 0, 1, 1, 1, 1] (by decide)

theorem runcmd_descriptors_left : ∃ ps : List (Proc ℕ),
    Reach (Starts (Cmd.pipe (.exec [0]) (.exec [1]))) Step ps ∧
    ∃ p ∈ ps, p.pc = .run (.exec [0]) ∧ (∀ fd, p.fds fd ≠ none ↔ fd < 3) ∧
      p.fds 1 = some (.pipe [] true) := by
  obtain ⟨ps, hr, hp⟩ := execLeft
  obtain ⟨p, hp, heq⟩ := Option.map_eq_some_iff.1 (of_decide_eq_true hp)
  have hmem := List.mem_of_getElem? hp
  have hpc := Pc.eq_run (congrArg Prod.snd heq)
  have haddr : p.addr = [.left] := congrArg Prod.fst heq
  obtain ⟨hfds, hpipe⟩ := (runcmd_descriptors hr).1 p hmem [0] hpc
  refine ⟨ps, hr, p, hmem, hpc, hfds, hpipe [] (.exec [0]) (.exec [1]) true rfl ?_ ?_⟩
  · rw [haddr]
    exact List.prefix_rfl
  · intro x d c hx hxb
    have h1 := hx.length_le
    have h2 := hxb.length_le
    rw [haddr] at h2
    simp only [List.length_append, List.length_singleton, List.length_nil] at h1 h2
    omega

end Sh

end Xv6
