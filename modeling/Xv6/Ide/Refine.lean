/-
  The disk driver agrees with the memory disk.

  The reference is `iderw` of `memide.c`, applied to a request at the moment
  the driver of `ide.c` appends it to its queue.  In every state the reference
  is what comes out when the requests that are still queued are served
  (`Inv.run`), so that both agree when the queue is empty.
-/
import Mathlib.Data.Fintype.Card
import Xv6.Lib.Fallible
import Xv6.Ide.Driver

namespace Xv6

open Function

namespace Ide

/-! ## The reference -/

/-- The buffers and the disk of `memide.c`. -/
structure Ref where
  buf : Fin NBUF → Buf
  disk : Disk

inductive Event where
  /-- a buffer is appended to the queue -/
  | request (b : Fin NBUF)
  /-- a buffer is changed by its owner -/
  | edit (b : Fin NBUF) (x : Buf)
  /-- the buffer at the head of the queue has been served -/
  | served (b : Fin NBUF)

namespace Ref

def edit (r : Ref) (b : Fin NBUF) (x : Buf) : Ref := { r with buf := update r.buf b x }

/-- `iderw(b)` of `memide.c`. -/
def request (r : Ref) (b : Fin NBUF) : Except BioPanic Ref :=
  (iderw FSSIZE (r.buf b) ⟨r.disk, r.disk, []⟩).map fun x =>
    { buf := update r.buf b x.1, disk := x.2.disk }

def event (r : Ref) : Event → Except BioPanic Ref
  | .request b => r.request b
  | .edit b x => .ok (r.edit b x)
  | .served _ => .ok r

def run (r : Ref) (es : List Event) : Except BioPanic Ref := es.foldlM event r

/-- What serving a request does. -/
def transfer (r : Ref) (b : Fin NBUF) : Ref :=
  let x := r.buf b
  if x.dirty then
    { buf := update r.buf b { x with dirty := false, valid := true }
      disk := update r.disk x.blockno x.data }
  else r.edit b { x with data := r.disk x.blockno, valid := true }

end Ref

/-- There is something to do for the buffer, and it can be done. -/
structure Work (x : Buf) : Prop where
  locked : x.holder ≠ none
  todo : ¬ (x.valid ∧ ¬ x.dirty)
  dev : x.dev = 1
  blockno : x.blockno.toNat < FSSIZE

namespace Ref

variable {r : Ref} {b c : Fin NBUF} {q : List (Fin NBUF)}

theorem request_ok (h : Work (r.buf b)) : r.request b = .ok (r.transfer b) := by
  have hl : (r.buf b).holder.isNone = false := by
    rw [Option.isNone_eq_false_iff, Option.isSome_iff_ne_none]
    exact h.locked
  have hn : ¬ FSSIZE ≤ (r.buf b).blockno.toNat := Nat.not_le.2 h.blockno
  rw [request, iderw, if_neg (by simp [hl]), if_neg h.todo, if_neg (not_not.2 h.dev), if_neg hn,
    transfer]
  split_ifs <;> rfl

theorem transfer_buf_of_ne (h : c ≠ b) : (r.transfer c).buf b = r.buf b := by
  unfold transfer edit
  dsimp only
  split_ifs <;> exact update_of_ne h.symm ..

theorem transfer_edit (h : c ≠ b) (x : Buf) :
    (r.edit b x).transfer c = (r.transfer c).edit b x := by
  have hc : (r.edit b x).buf c = r.buf c := update_of_ne h ..
  unfold transfer
  dsimp only
  rw [hc]
  split_ifs
  all_goals
    simp only [edit]
    rw [update_comm h.symm]

theorem serve_buf (h : b ∉ q) : (q.foldl transfer r).buf b = r.buf b := by
  induction q generalizing r with
  | nil => rfl
  | cons c q ih =>
    obtain ⟨hb, hq⟩ := not_or.1 (mt List.mem_cons.2 h)
    rw [List.foldl_cons, ih hq, transfer_buf_of_ne (Ne.symm hb)]

theorem serve_edit (h : b ∉ q) (x : Buf) :
    q.foldl transfer (r.edit b x) = (q.foldl transfer r).edit b x := by
  induction q generalizing r with
  | nil => rfl
  | cons c q ih =>
    obtain ⟨hb, hq⟩ := not_or.1 (mt List.mem_cons.2 h)
    rw [List.foldl_cons, List.foldl_cons, transfer_edit (Ne.symm hb), ih hq]

/-- A block that has been written already is written again. -/
theorem transfer_written (h : (r.buf b).dirty = true) :
    transfer { r with disk := update r.disk (r.buf b).blockno (r.buf b).data } b =
      r.transfer b := by
  unfold transfer
  dsimp only
  rw [if_pos h, if_pos h, update_idem]

theorem run_append {r' : Ref} {es : List Event} (h : r.run es = .ok r') (es' : List Event) :
    r.run (es ++ es') = r'.run es' := by
  rw [run, List.foldlM_append]
  exact congrArg (· >>= fun r => es'.foldlM event r) h

end Ref

/-! ## The command -/

variable {x : Buf} {pc : Pc}

theorem command_regs (h : Work x) :
    (State.command x).regs.slave = true ∧ (State.command x).regs.sector = x.blockno := by
  have hn : x.blockno.toNat < 1000 := h.blockno
  have hs : State.sectorPerBlock = 1 := rfl
  have hhi : x.blockno.toNat / 2 ^ 24 % 16 = 0 := by omega
  have hdrive : (0xe0 ||| (1 : UInt32).toNat % 2 * 16 ||| 0) = 0xf0 := by decide
  simp only [State.command, Regs.slave, Regs.sector, hs, Nat.mul_one, hhi, h.dev, hdrive,
    UInt8.toNat_ofNat']
  refine ⟨by decide, ?_⟩
  rw [← UInt32.toNat_inj, UInt32.toNat_ofNat_of_lt' (by rw [UInt32.size]; omega)]
  omega

/-- What the disk does with the command for a buffer. -/
theorem exec_command {d : Device} (h : Work x) (hc : d.cmd = some (State.command x))
    (hirq : d.irq = false) : d.exec = some
      (if x.dirty then
        { d with
          irq := true
          disk := update d.disk true (update (d.disk true) x.blockno x.data) }
      else { d with irq := true, out := d.disk true x.blockno }) := by
  obtain ⟨hslave, hsector⟩ := command_regs h
  have hs : State.sectorPerBlock = 1 := rfl
  have hcmd : State.command x = ⟨(State.command x).regs, if x.dirty then .write else .read,
      if x.dirty then some x.data else none⟩ := by
    simp only [State.command, hs, if_true]
  rw [hcmd] at hc
  unfold Device.exec
  rw [hc]
  cases hx : x.dirty
  all_goals simp [hirq, hslave, hsector]

/-! ## The functions of the driver -/

/-- The buffers in the list, in order. -/
def Queue (s : State) (q : List (Fin NBUF)) : Prop := Ring.Path s.next none (q.map some) none

variable {s s' : State} {q : List (Fin NBUF)} {b : Fin NBUF} {p : ℕ}

theorem Queue.head (h : Queue s q) : s.idequeue = q.head? := by
  cases q with
  | nil => exact h
  | cons b q => exact h.1

theorem nodup_slots (h : q.Nodup) : (none :: q.map some).Nodup :=
  List.nodup_cons.2 ⟨by simp, h.map (Option.some_injective _)⟩

theorem setNext_next (s : State) (b : Fin NBUF) (y : Option (Fin NBUF)) :
    (s.setNext b y).next = update s.next y (some b) := by
  funext x
  cases y <;> cases x <;> simp [State.setNext, State.next, update_apply]

/-- The loop that looks for the end of the list stops there. -/
theorem seek_end (hq : Queue s q) (hn : q.Nodup) : ∃ y, (none :: q.map some).getLast? = some y ∧
    Ring.seek (fun pp => (s.next pp).isNone) s.next (NBUF + 1) none = some y := by
  have hnd := nodup_slots hn
  have hlen : q.length ≤ NBUF := by simpa using hn.length_le_card
  obtain ⟨y, hy⟩ : ∃ y, (none :: q.map some).getLast? = some y :=
    ⟨_, List.getLast?_eq_some_getLast (by simp)⟩
  have hmem := List.mem_of_getLast? hy
  refine ⟨y, hy, Ring.seek_ring hq hmem (fun x hx => ?_) (NBUF + 1) (by simp; omega)⟩
  rw [Option.isNone_iff_eq_none]
  refine ⟨fun h => Ring.Path.next_inj hq hnd hx hmem (h.trans (hq.last hy).symm), ?_⟩
  rintro rfl
  exact hq.last hy

theorem append_spec (hq : Queue s q) (hn : q.Nodup) (hb : b ∉ q) :
    ∃ iq qn, s.append b = .ok { s with idequeue := iq, qnext := qn } ∧
      Queue { s with idequeue := iq, qnext := qn } (q ++ [b]) := by
  have hb' : some b ∉ none :: q.map some := by simpa using hb
  have hq₁ : Queue { s with qnext := update s.qnext b none } q := by
    refine hq.congr fun x hx => ?_
    cases x with
    | none => rfl
    | some c => exact update_of_ne (fun hc : c = b => hb' (hc ▸ hx)) ..
  obtain ⟨y, hy, hseek⟩ := seek_end hq₁ hn
  have hby : some b ≠ y := fun h => hb' (h ▸ List.mem_of_getLast? hy)
  generalize hs₁ : { s with qnext := update s.qnext b none } = s₁ at hq₁ hseek
  have hq₂ : Queue (s₁.setNext b y) (q ++ [b]) := by
    rw [Queue, setNext_next, List.map_append, List.map_singleton, Ring.path_append]
    refine ⟨hq₁.redirect (nodup_slots hn) hy (update_self ..) fun x _ hx =>
      update_of_ne hx .., ?_⟩
    show update s₁.next y (some b) (some b) = none
    rw [update_of_ne hby, ← hs₁]
    exact update_self ..
  have happ : s.append b = .ok (s₁.setNext b y) := by
    unfold State.append
    rw [hs₁]
    dsimp only
    rw [hseek]
  subst hs₁
  cases y with
  | none | some => exact ⟨_, _, happ, hq₂⟩

theorem idestart_spec (hb : (s.buf b).blockno.toNat < FSSIZE) (hd : s.dev.busy = false) :
    s.idestart (some b) = .ok { s with dev := s.dev.issue (State.command (s.buf b)) } := by
  rw [State.idestart, if_neg (Nat.not_le.2 hb), if_neg (by decide), if_neg (by simp [hd])]

/-- The buffer after its request has been served. -/
def done (x : Buf) (out : Block) : Buf :=
  { x with data := if x.dirty then x.data else out, valid := true, dirty := false }

/-- The handler has served `b` and not started the next request yet. -/
def complete (s : State) (b : Fin NBUF) : State :=
  { s with
    idequeue := s.qnext b
    buf := update s.buf b (done (s.buf b) s.dev.out)
    proc := fun p => if s.proc p = .asleep b then .ready b else s.proc p }

theorem readData_eq (hd : s.dev.busy = false) : s.readData b = .ok (s.setBuf b
    { s.buf b with data := if (s.buf b).dirty then (s.buf b).data else s.dev.out }) := by
  unfold State.readData
  cases hx : (s.buf b).dirty
  · rw [if_neg (by rintro ⟨⟩), if_neg (by simp [hd])]
    rfl
  · have hself : s.setBuf b (s.buf b) = s := by rw [State.setBuf, update_eq_self]
    exact congrArg Except.ok hself.symm

theorem ideintr_eq (hb : s.idequeue = some b) (hd : s.dev.busy = false) :
    s.ideintr = if s.qnext b ≠ none then (complete s b).idestart (s.qnext b)
      else .ok (complete s b) := by
  unfold State.ideintr
  rw [hb]
  dsimp only
  rw [readData_eq (s := { s with idequeue := s.qnext b }) hd]
  have hs : complete s b = State.wakeup (State.setBuf (State.setBuf
      { s with idequeue := s.qnext b } b { s.buf b with
        data := if (s.buf b).dirty then (s.buf b).data else s.dev.out }) b
      (done (s.buf b) s.dev.out)) b := by
    simp only [State.setBuf, update_idem]
    rfl
  rw [hs]
  simp only [bind, Except.bind, State.setBuf, update_self]
  rfl

/-- The disk after the handler: it gets the command for the new head of the queue. -/
def restart (s : State) : List (Fin NBUF) → Device
  | [] => s.dev
  | c :: _ => s.dev.issue (State.command (s.buf c))

/-- The handler serves the head of the queue and starts the next request. -/
theorem ideintr_spec (hq : Queue s (b :: q)) (hw : ∀ c ∈ q, (s.buf c).blockno.toNat < FSSIZE)
    (hd : s.dev.busy = false) (hb : b ∉ q) :
    s.ideintr = .ok { complete s b with dev := restart s q } := by
  rw [ideintr_eq hq.1 hd]
  cases q with
  | nil =>
    have hqn : s.qnext b = none := hq.2
    rw [if_neg (not_not.2 hqn)]
    rfl
  | cons c q =>
    have hqn : s.qnext b = some c := hq.2.1
    have hc : (complete s b).buf c = s.buf c :=
      update_of_ne (fun h : c = b => hb (h ▸ List.mem_cons_self)) ..
    rw [hqn, if_pos (by rintro ⟨⟩), idestart_spec (s := complete s b) (hc ▸ hw c List.mem_cons_self) hd, hc]
    rfl

/-! ## The invariant -/

/-- The command for `x` has been executed. -/
def Executed (d : Device) (x : Buf) : Prop :=
  if x.dirty then d.disk true x.blockno = x.data else d.out = d.disk true x.blockno

/-- What is known of a call of `p` at some point of `iderw`. -/
def PcOk (buf : Fin NBUF → Buf) (q : List (Fin NBUF)) (p : ℕ) : Pc → Prop
  | .idle => True
  | .enter b => (buf b).holder = some p ∧ b ∉ q ∧ Work (buf b)
  | .asleep b => (buf b).holder = some p ∧ b ∈ q
  | .ready b => (buf b).holder = some p ∧ b ∉ q ∧ (buf b).valid = true ∧ (buf b).dirty = false

/-- The queue is `q`; each of its buffers belongs to a process that sleeps. -/
structure Ok (s : State) (q : List (Fin NBUF)) : Prop where
  queue : Queue s q
  nodup : q.Nodup
  disk1 : s.havedisk1 = true
  proc : ∀ p, PcOk s.buf q p (s.proc p)
  owner : ∀ {b}, b ∈ q → Work (s.buf b) ∧ ∃ p, s.proc p = .asleep b
  cmd : s.dev.cmd = q.head?.map fun b => State.command (s.buf b)
  irq : s.dev.irq = true → ∃ b ∈ q.head?, Executed s.dev (s.buf b)

/-- The buffers of the requests, in order. -/
def requests : List Event → List (Fin NBUF) := List.filterMap fun
  | .request b => some b
  | _ => none

/-- The buffers that have been served, in order. -/
def served : List Event → List (Fin NBUF) := List.filterMap fun
  | .served b => some b
  | _ => none

theorem requests_append (es es' : List Event) : requests (es ++ es') = requests es ++ requests es' :=
  List.filterMap_append

theorem served_append (es es' : List Event) : served (es ++ es') = served es ++ served es' :=
  List.filterMap_append

def ref (s : State) : Ref := ⟨s.buf, s.dev.disk true⟩

/-- The events `es` have led from `s₀` to `s`: the reference has seen the queued requests too. -/
structure Agree (s₀ : State) (es : List Event) (s : State) (q : List (Fin NBUF)) : Prop where
  order : requests es = served es ++ q
  count : s.dev.count = (served es).length + (q.take 1).length
  run : (ref s₀).run es = .ok (q.foldl Ref.transfer (ref s))

/-- What an action adds to the history. -/
def Act.events : Act → List Event
  | edit b x => [.edit b x]
  | enter _ b => [.request b]
  | intr (some b) => [.served b]
  | _ => []

/-- Runs from `s₀`, with their history. -/
inductive Runs (s₀ : State) : List Event → State → Prop
  | init : Init s₀ → Runs s₀ [] s₀
  | step {es : List Event} {s s' : State} {x : Act} : Runs s₀ es s → Step s x s' →
      Runs s₀ (es ++ x.events) s'

variable {s₀ : State} {es : List Event}

/-- Nothing happens that the reference sees. -/
theorem Agree.same (h : Agree s₀ es s q) (hd : s'.dev.count = s.dev.count)
    (hr : q.foldl Ref.transfer (ref s') = q.foldl Ref.transfer (ref s)) :
    Agree s₀ (es ++ []) s' q := by
  rw [List.append_nil]
  exact ⟨h.order, hd.trans h.count, hr ▸ h.run⟩

theorem Ok.busy_irq (h : Ok s q) (hq : q = []) : s.dev.cmd = none ∧ s.dev.irq = false := by
  subst hq
  refine ⟨h.cmd, Bool.eq_false_iff.2 fun hi => ?_⟩
  obtain ⟨b, hb, -⟩ := h.irq hi
  cases hb

theorem PcOk.holder {buf : Fin NBUF → Buf} (h : PcOk buf q p pc) (hb : pc.call = some b) :
    (buf b).holder = some p := by
  cases pc <;> cases hb <;> exact h.1

/-- Changes that do not concern the buffer of a call. -/
theorem PcOk.congr {buf buf' : Fin NBUF → Buf} {q' : List (Fin NBUF)} (h : PcOk buf q p pc)
    (hb : ∀ b, pc.call = some b → buf' b = buf b ∧ (b ∈ q' ↔ b ∈ q)) :
    PcOk buf' q' p pc := by
  cases pc with
  | idle => trivial
  | enter b | asleep b | ready b =>
    obtain ⟨h1, h2⟩ := hb b rfl
    simpa only [PcOk, h1, h2] using h

/-- A process moves to the program counter `pc`. -/
theorem PcOk.goto {buf : Fin NBUF → Buf} {proc : ℕ → Pc} (hp : PcOk buf q p pc)
    (h : ∀ r, r ≠ p → PcOk buf q r (proc r)) (r : ℕ) :
    PcOk buf q r (update proc p pc r) :=
  (Function.forall_update_iff proc (p := fun r pc => PcOk buf q r pc)).2 ⟨hp, h⟩ r

/-- A process that sleeps goes on to do so. -/
theorem asleep_update {proc : ℕ → Pc} {r : ℕ} (hr : proc r = .asleep b) (hp : proc p ≠ .asleep b) :
    update proc p pc r = .asleep b := by
  rw [update_of_ne]
  · exact hr
  · rintro rfl
    exact hp hr

/-- The call that a queued buffer belongs to. -/
theorem Ok.holder_of_mem (h : Ok s q) (hb : b ∈ q) (hp : (s.buf b).holder = some p) :
    s.proc p = .asleep b := by
  obtain ⟨-, r, hr⟩ := h.owner hb
  have := (h.proc r).holder (b := b) (by rw [hr]; rfl)
  obtain rfl : p = r := Option.some.inj (hp.symm.trans this)
  exact hr

theorem Ok.edit (h : Ok s q) (ha : Agree s₀ es s q) (hb : ∀ p, (s.proc p).call ≠ some b) :
    Ok (s.setBuf b x) q ∧ Agree s₀ (es ++ [.edit b x]) (s.setBuf b x) q := by
  have hbq : b ∉ q := by
    intro hm
    obtain ⟨-, p, hp⟩ := h.owner hm
    exact hb p (by rw [hp]; rfl)
  have hbuf : ∀ {c}, c ≠ b → (s.setBuf b x).buf c = s.buf c := fun hc => update_of_ne hc ..
  have hmem : ∀ {c}, c ∈ q → (s.setBuf b x).buf c = s.buf c := fun hc => hbuf fun he => hbq (he ▸ hc)
  constructor
  · refine ⟨h.queue, h.nodup, h.disk1, fun p => ?_, fun hc => ?_, ?_, fun hi => ?_⟩
    · exact (h.proc p).congr fun c hc => ⟨hbuf fun he => hb p (he ▸ hc), Iff.rfl⟩
    · rw [hmem hc]
      exact h.owner hc
    · refine h.cmd.trans ?_
      cases q with
      | nil => rfl
      | cons c q => exact congrArg (some <| State.command ·) (hmem List.mem_cons_self).symm
    · obtain ⟨c, hc, he⟩ := h.irq hi
      exact ⟨c, hc, by rw [hmem (List.mem_of_mem_head? hc)]; exact he⟩
  · refine ⟨?_, ?_, ?_⟩
    · rw [requests_append, served_append]
      simpa [requests, served] using ha.order
    · rw [served_append]
      exact ha.count.trans (by simp [served])
    · rw [Ref.run_append ha.run]
      exact congrArg Except.ok (Ref.serve_edit hbq x).symm

theorem Ok.call (h : Ok s q) (hp : s.proc p = .idle) (hl : (s.buf b).holder = some p)
    (hw : Work (s.buf b)) : Ok (s.goto p (.enter b)) q := by
  have hbq : b ∉ q := by
    intro hm
    have := h.holder_of_mem hm hl
    rw [hp] at this
    cases this
  refine ⟨h.queue, h.nodup, h.disk1, PcOk.goto ⟨hl, hbq, hw⟩ fun r _ => h.proc r,
    fun {c} hc => ?_, h.cmd, h.irq⟩
  obtain ⟨hw, r, hr⟩ := h.owner hc
  exact ⟨hw, r, asleep_update hr (hp ▸ (by rintro ⟨⟩))⟩

/-- The disk after a request has been appended: it is started if it was idle. -/
def startIf (s : State) (b : Fin NBUF) : List (Fin NBUF) → Device
  | [] => s.dev.issue (State.command (s.buf b))
  | _ :: _ => s.dev

theorem iderw_spec (h : Ok s q) (hp : s.proc p = .enter b) :
    ∃ iq qn, s.iderw p b = .ok { s with
        idequeue := iq, qnext := qn, dev := startIf s b q
        proc := update s.proc p (.asleep b) } ∧
      Queue { s with idequeue := iq, qnext := qn } (q ++ [b]) := by
  obtain ⟨-, hbq, hw⟩ : PcOk s.buf q p (.enter b) := hp ▸ h.proc p
  obtain ⟨iq, qn, happ, hq⟩ := append_spec h.queue h.nodup hbq
  refine ⟨iq, qn, ?_, hq⟩
  have hiq : iq = (q ++ [b]).head? := hq.head
  have hwait : ∀ d, State.wait { s with idequeue := iq, qnext := qn, dev := d } p b =
      { s with idequeue := iq, qnext := qn, dev := d
               proc := update s.proc p (.asleep b) } := by
    intro d
    rw [State.wait, if_neg hw.todo]
    rfl
  rw [State.iderw, happ]
  cases q with
  | nil =>
    have hd : s.dev.busy = false := by rw [Device.busy, (h.busy_irq rfl).1]; rfl
    have hstart := idestart_spec (s := { s with idequeue := iq, qnext := qn }) hw.blockno hd
    simp only [bind, Except.bind]
    rw [if_pos (show iq = some b from hiq), hstart]
    exact congrArg Except.ok (hwait _)
  | cons c q =>
    have hcb : iq ≠ some b := by
      rw [hiq]
      exact fun hc => hbq (Option.some.inj hc ▸ List.mem_cons_self)
    simp only [bind, Except.bind]
    rw [if_neg hcb]
    exact congrArg Except.ok (hwait _)

theorem Ok.iderw (h : Ok s q) (ha : Agree s₀ es s q) (hp : s.proc p = .enter b)
    (hs : s.iderw p b = .ok s') : Ok s' (q ++ [b]) ∧ Agree s₀ (es ++ [.request b]) s' (q ++ [b]) := by
  obtain ⟨hl, hbq, hw⟩ : PcOk s.buf q p (.enter b) := hp ▸ h.proc p
  obtain ⟨iq, qn, heq, hq⟩ := iderw_spec h hp
  rw [heq] at hs
  cases hs
  have hrun : (ref s₀).run (es ++ [.request b]) =
      .ok ((q ++ [b]).foldl Ref.transfer (ref s)) := by
    rw [Ref.run_append ha.run, List.foldl_append]
    have hbuf : ((q.foldl Ref.transfer (ref s)).buf b) = s.buf b := Ref.serve_buf hbq
    have := Ref.request_ok (hbuf ▸ hw : Work ((q.foldl Ref.transfer (ref s)).buf b))
    show ((q.foldl Ref.transfer (ref s)).request b >>= pure) = _
    rw [this]
    rfl
  have horder : requests (es ++ [.request b]) = served (es ++ [.request b]) ++ (q ++ [b]) := by
    rw [requests_append, served_append, ha.order]
    simp [requests, served]
  have hserved : served (es ++ [.request b]) = served es := by
    rw [served_append]
    simp [served]
  constructor
  · refine ⟨hq, ?_, h.disk1, PcOk.goto ⟨hl, by simp⟩ fun r hr => ?_, fun {c} hc => ?_, ?_, ?_⟩
    · exact List.nodup_append.2 ⟨h.nodup, by simp, fun c hc d hd => by
        rw [List.mem_singleton.1 hd]
        exact fun he => hbq (he ▸ hc)⟩
    · refine (h.proc r).congr fun c hc => ⟨rfl, ?_⟩
      have hcb : c ≠ b := by
        rintro rfl
        exact hr (Option.some.inj (((h.proc r).holder hc).symm.trans hl))
      simp [hcb]
    · rcases List.mem_append.1 hc with hc | hc
      · obtain ⟨hwc, r, hr⟩ := h.owner hc
        exact ⟨hwc, r, asleep_update hr (hp ▸ (by rintro ⟨⟩))⟩
      · rw [List.mem_singleton.1 hc]
        exact ⟨hw, p, update_self ..⟩
    · cases q with
      | nil => rfl
      | cons c q => exact h.cmd
    · cases q with
      | nil => exact (by rintro ⟨⟩)
      | cons c q => exact h.irq
  · refine ⟨horder, ?_, ?_⟩
    · rw [hserved]
      have hcount := ha.count
      cases q with
      | nil => exact congrArg (· + 1) hcount
      | cons c q => exact hcount
    · rw [hrun]
      cases q <;> rfl

theorem Ok.resume (h : Ok s q) (hp : s.proc p = .ready b) : Ok (s.wait p b) q := by
  obtain ⟨hl, hbq, hv, hd⟩ : PcOk s.buf q p (.ready b) := hp ▸ h.proc p
  rw [State.wait, if_pos (by simp [hv, hd])]
  refine ⟨h.queue, h.nodup, h.disk1, PcOk.goto trivial fun r _ => h.proc r,
    fun {c} hc => ?_, h.cmd, h.irq⟩
  obtain ⟨hw, r, hr⟩ := h.owner hc
  exact ⟨hw, r, asleep_update hr (hp ▸ (by rintro ⟨⟩))⟩

theorem exec_some {d d' : Device} (h : d.exec = some d') : d.cmd ≠ none ∧ d.irq = false := by
  unfold Device.exec at h
  split at h
  · rename_i hc
    split_ifs at h with hi
    exact ⟨by rw [hc]; rintro ⟨⟩, Bool.eq_false_iff.2 hi⟩
  · rename_i hc
    split_ifs at h with hi
    exact ⟨by rw [hc]; rintro ⟨⟩, Bool.eq_false_iff.2 hi⟩
  · cases h

theorem Ok.exec (h : Ok s q) (ha : Agree s₀ es s q) {d : Device} (hd : s.dev.exec = some d) :
    Ok { s with dev := d } q ∧ Agree s₀ (es ++ []) { s with dev := d } q := by
  obtain ⟨hc, hirq⟩ := exec_some hd
  cases q with
  | nil => exact absurd h.cmd hc
  | cons b q =>
    have hw := (h.owner (b := b) List.mem_cons_self).1
    rw [exec_command hw h.cmd hirq] at hd
    cases hx : (s.buf b).dirty
    · simp only [hx, Bool.false_eq_true, if_false, Option.some.injEq] at hd
      subst hd
      refine ⟨⟨h.queue, h.nodup, h.disk1, h.proc, h.owner, h.cmd, fun _ => ⟨b, rfl, ?_⟩⟩,
        ha.same rfl rfl⟩
      simp [Executed, hx]
    · simp only [hx, if_true, Option.some.injEq] at hd
      subst hd
      refine ⟨⟨h.queue, h.nodup, h.disk1, h.proc, h.owner, h.cmd, fun _ => ⟨b, rfl, ?_⟩⟩,
        ha.same rfl ?_⟩
      · simp [Executed, hx]
      · have hwritten := Ref.transfer_written (r := ref s) hx
        simp only [ref, update_self, List.foldl_cons] at hwritten ⊢
        rw [hwritten]

/-- The head of the queue is taken out. -/
theorem queue_tail (h : Queue s (b :: q)) : Queue { s with idequeue := s.qnext b } q := by
  refine Ring.Path.head h.2 (show _ = s.next (some b) from rfl) fun x hx => ?_
  obtain ⟨c, -, rfl⟩ := List.mem_map.1 hx
  rfl

/-- Serving the head of the queue is what the memory disk does. -/
theorem transfer_done (he : Executed s.dev (s.buf b)) : (ref s).transfer b =
    ⟨update s.buf b (done (s.buf b) s.dev.out), s.dev.disk true⟩ := by
  unfold Executed at he
  unfold Ref.transfer done ref Ref.edit
  cases hx : (s.buf b).dirty
  · simp only [hx, Bool.false_eq_true, if_false] at he ⊢
    rw [he]
  · simp only [hx, if_true] at he ⊢
    rw [← he, update_eq_self]

/-- The state after an interrupt that serves `b`. -/
theorem intr_spec (h : Ok s (b :: q)) : State.ideintr { s with dev := s.dev.ack } =
    .ok { complete s b with dev := restart { s with dev := s.dev.ack } q } := by
  obtain ⟨hb, -⟩ := List.nodup_cons.1 h.nodup
  exact ideintr_spec (s := { s with dev := s.dev.ack }) h.queue
    (fun c hc => (h.owner (List.mem_cons_of_mem b hc)).1.blockno) rfl hb

theorem Ok.complete (h : Ok s (b :: q)) :
    Ok { complete s b with dev := restart { s with dev := s.dev.ack } q } q := by
  obtain ⟨hb, hn⟩ := List.nodup_cons.1 h.nodup
  have hbuf : ∀ {c}, c ≠ b → (Ide.complete s b).buf c = s.buf c := fun hc =>
    update_of_ne hc ..
  have hmem : ∀ {c}, c ∈ q → c ≠ b := fun hc he => hb (he ▸ hc)
  refine ⟨queue_tail h.queue, hn, h.disk1, fun r => ?_, fun {c} hc => ?_, ?_, ?_⟩
  · show PcOk (Ide.complete s b).buf q r (if s.proc r = .asleep b then .ready b else s.proc r)
    split_ifs with hr
    · have hl := (h.proc r).holder (b := b) (by rw [hr]; rfl)
      rw [PcOk, show (Ide.complete s b).buf b = done (s.buf b) s.dev.out from update_self ..]
      exact ⟨hl, hb, rfl, rfl⟩
    · refine (h.proc r).congr fun c hc => ?_
      have hcb : c ≠ b := by
        rintro rfl
        exact hr (h.holder_of_mem List.mem_cons_self ((h.proc r).holder hc))
      exact ⟨hbuf hcb, by simp [hcb]⟩
  · obtain ⟨hw, r, hr⟩ := h.owner (List.mem_cons_of_mem b hc)
    refine ⟨?_, r, ?_⟩
    · rwa [show (Ide.complete s b).buf c = s.buf c from hbuf (hmem hc)]
    · show (if s.proc r = .asleep b then Pc.ready b else s.proc r) = .asleep c
      rw [hr, if_neg fun he => hmem hc (Pc.asleep.inj he)]
  · cases q with
    | nil => rfl
    | cons c q =>
      exact congrArg (some <| State.command ·) (hbuf (hmem List.mem_cons_self)).symm
  · cases q <;> exact (by rintro ⟨⟩)

theorem Agree.complete (h : Agree s₀ es s (b :: q)) (he : Executed s.dev (s.buf b)) :
    Agree s₀ (es ++ [.served b])
      { complete s b with dev := restart { s with dev := s.dev.ack } q } q := by
  refine ⟨?_, ?_, ?_⟩
  · rw [requests_append, served_append, h.order]
    simp [requests, served]
  · have hcount : s.dev.count = (served es).length + 1 := h.count
    have hserved : (served (es ++ [.served b])).length = (served es).length + 1 := by
      rw [served_append, List.length_append]
      rfl
    rw [hserved]
    cases q with
    | nil => exact hcount
    | cons c q => exact congrArg (· + 1) hcount
  · rw [Ref.run_append h.run, List.foldl_cons, transfer_done he]
    cases q <;> rfl

/-- The tests of `iderw` leave something to do. -/
theorem work_of_check (h : s.check b = .ok ()) (hl : (s.buf b).holder = some p)
    (hd : (s.buf b).dev = 1) (hn : (s.buf b).blockno.toNat < FSSIZE) : Work (s.buf b) := by
  unfold State.check at h
  split_ifs at h with h1 h2 h3
  exact ⟨by rw [hl]; rintro ⟨⟩, h2, hd, hn⟩

/-- **Every step keeps the driver in agreement with the memory disk.** -/
theorem Ok.step {x : Act} (h : Ok s q) (ha : Agree s₀ es s q) (hs : Step s x s') :
    ∃ q', Ok s' q' ∧ Agree s₀ (es ++ x.events) s' q' := by
  cases hs with
  | edit hb => exact ⟨q, h.edit ha hb⟩
  | call hp hl hd hn hc =>
    exact ⟨q, h.call hp hl (work_of_check hc hl hd hn), ha.same rfl rfl⟩
  | enter hp hs => exact ⟨_, h.iderw ha hp hs⟩
  | resume hp => exact ⟨q, h.resume hp, ha.same rfl rfl⟩
  | exec hd => exact ⟨q, h.exec ha hd⟩
  | intr hirq hs =>
    obtain ⟨b, hb, he⟩ := h.irq hirq
    cases q with
    | nil => cases hb
    | cons c q =>
      cases hb
      rw [intr_spec h] at hs
      cases hs
      rw [h.queue.head]
      exact ⟨q, h.complete, ha.complete he⟩
  | spurious hq hs =>
    unfold State.ideintr at hs
    rw [hq] at hs
    cases hs
    exact ⟨q, h, ha.same rfl rfl⟩

theorem ok_of_runs (h : Runs s₀ es s) : ∃ q, Ok s q ∧ Agree s₀ es s q := by
  induction h with
  | init h0 =>
    obtain ⟨hq, hd1, hc, hirq, hcount, hp⟩ := h0
    refine ⟨[], ⟨hq, List.nodup_nil, hd1, fun p => ?_, by rintro _ ⟨⟩, hc, ?_⟩, ⟨rfl, hcount, rfl⟩⟩
    · rw [hp p]
      trivial
    · rw [hirq]
      exact (by rintro ⟨⟩)
  | step _ hs ih =>
    obtain ⟨q, h, ha⟩ := ih
    exact h.step ha hs

/-- The command transfers the block of `x`. -/
def IsFor (c : Command) (x : Buf) : Prop :=
  c.regs.slave = true ∧ c.regs.sector = x.blockno ∧
    if x.dirty then c.code = .write ∧ c.data = some x.data else c.code = .read

theorem isFor_command (h : Work x) : IsFor (State.command x) x := by
  obtain ⟨hslave, hsector⟩ := command_regs h
  refine ⟨hslave, hsector, ?_⟩
  have hs : State.sectorPerBlock = 1 := rfl
  cases hx : x.dirty <;> simp [State.command, hx, hs]

/-- The two drivers make the same test of a locked buffer. -/
theorem check_cases (hd1 : s.havedisk1 = true) (hl : (s.buf b).holder = some p) :
    s.check b = .ok () ∨ s.check b = .error (.panic "iderw: nothing to do") ∧
        ∀ m, Xv6.iderw FSSIZE (s.buf b) m = .error .nothingToDo := by
  unfold State.check Xv6.iderw
  rw [hl, if_neg (by rintro ⟨⟩)]
  by_cases ht : (s.buf b).valid ∧ ¬ (s.buf b).dirty
  · refine .inr ⟨if_pos ht, fun m => ?_⟩
    rw [if_neg (by rintro ⟨⟩), if_pos ht]
  · refine .inl ?_
    rw [if_neg ht, if_neg]
    rw [hd1]
    exact fun h => Bool.noConfusion h.2

/-- **The interrupt-driven driver agrees with the memory disk.** -/
theorem iderw_agrees (h : Runs s₀ es s) : ∃ q,
    (Queue s q ∧ q.Nodup) ∧
    ((s.dev.cmd.isSome ↔ q ≠ []) ∧
      ∀ c b, s.dev.cmd = some c → q.head? = some b → IsFor c (s.buf b)) ∧
    (requests es = served es ++ q ∧ s.dev.count = (served es).length + (q.take 1).length) ∧
    (∃ r, (ref s₀).run es = .ok r ∧
      ((∀ p, s.proc p = .idle) → q = [] ∧ s.buf = r.buf ∧ s.dev.disk true = r.disk)) ∧
    -- nobody panics or loops, but for a request that both drivers refuse
    (∀ p b, s.proc p = .enter b → ∃ s', s.iderw p b = .ok s') ∧
    (s.dev.irq = true → ∃ s', State.ideintr { s with dev := s.dev.ack } = .ok s') ∧
    ∀ p b, (s.buf b).holder = some p →
      s.check b = .ok () ∨ s.check b = .error (.panic "iderw: nothing to do") ∧
        ∀ m, Xv6.iderw FSSIZE (s.buf b) m = .error .nothingToDo := by
  obtain ⟨q, hok, ha⟩ := ok_of_runs h
  refine ⟨q, ⟨hok.queue, hok.nodup⟩, ⟨?_, fun c b hc hb => ?_⟩, ⟨ha.order, ha.count⟩,
    ⟨_, ha.run, fun hidle => ?_⟩, fun p b hp => ?_, fun hi => ?_, fun p b => check_cases hok.disk1⟩
  · rw [hok.cmd]
    cases q <;> simp
  · rw [hok.cmd, hb] at hc
    cases hc
    exact isFor_command (hok.owner (List.mem_of_mem_head? hb)).1
  · have hq : q = [] := by
      refine List.eq_nil_iff_forall_not_mem.2 fun b hb => ?_
      obtain ⟨-, p, hp⟩ := hok.owner hb
      rw [hidle p] at hp
      cases hp
    subst hq
    exact ⟨rfl, rfl, rfl⟩
  · obtain ⟨iq, qn, hs, -⟩ := iderw_spec hok hp
    exact ⟨_, hs⟩
  · obtain ⟨b, hb, -⟩ := hok.irq hi
    cases q with
    | nil => cases hb
    | cons c q => exact ⟨_, intr_spec hok⟩

/-- Process 0 has locked buffer 3 and process 1 the others, for block 7 of device 1. -/
def start : State where
  buf b := ⟨false, false, 1, 7, some (if b = 3 then 0 else 1), 1, fun _ => 0⟩
  qnext _ := none
  idequeue := none
  havedisk1 := true
  dev := ⟨fun _ _ _ => 5, none, false, fun _ => 0, 0⟩
  proc _ := .idle

-- Block 7 is read into buffer 3 while buffer 4 waits for its turn.
theorem iderw_agrees_read : ∃ s, Runs start [.request 3, .request 4, .served 3, .served 4] s ∧
    (∀ p, s.proc p = .idle) ∧ ∃ r,
      (ref start).run [.request 3, .request 4, .served 3, .served 4] = .ok r ∧ s.buf = r.buf := by
  have h0 : Runs start [] start := .init ⟨rfl, rfl, rfl, rfl, rfl, fun _ => rfl⟩
  have h1 := h0.step (.call (p := 0) (b := 3) rfl rfl rfl (by decide) rfl)
  have h2 := h1.step (.enter (p := 0) (b := 3) rfl rfl)
  have h3 := h2.step (.call (p := 1) (b := 4) rfl rfl rfl (by decide) rfl)
  have h4 := h3.step (.enter (p := 1) (b := 4) rfl rfl)
  have h5 := (h4.step (.exec rfl)).step (.intr rfl rfl)
  have h6 := h5.step (.resume (p := 0) (b := 3) rfl)
  have h7 := (h6.step (.exec rfl)).step (.intr rfl rfl)
  have h8 := h7.step (.resume (p := 1) (b := 4) rfl)
  obtain ⟨q, -, -, -, ⟨r, hr, hidle⟩, -⟩ := iderw_agrees h8
  refine ⟨_, h8, ?_, r, hr, (hidle ?_).2.1⟩
  all_goals
    rintro (_ | _ | p) <;> rfl

end Ide

end Xv6
