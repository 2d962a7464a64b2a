/-
  Pipes lose, duplicate and reorder no bytes.
-/
import Mathlib.Data.List.Forall2
import Xv6.Io.Calls
import Xv6.Proc.Control

namespace Xv6

open Kern

/-- The bytes that process `p` stored. -/
def bytesOf (p : PSlot) (l : List (PSlot × UInt8)) : List UInt8 :=
  (l.filter fun x => x.1 = p).map Prod.snd

@[simp]
theorem bytesOf_append (p : PSlot) (l l' : List (PSlot × UInt8)) :
    bytesOf p (l ++ l') = bytesOf p l ++ bytesOf p l' := by
  simp [bytesOf]

theorem bytesOf_self (p : PSlot) (bs : List UInt8) : bytesOf p (bs.map (p, ·)) = bs := by
  induction bs with
  | nil => rfl
  | cons b bs ih => simpa [bytesOf] using ih

theorem bytesOf_ne {p q : PSlot} (h : q ≠ p) (bs : List UInt8) :
    bytesOf q (bs.map (p, ·)) = [] := by
  simp [bytesOf, h.symm]

/-- The bytes that were copied and those in the pipe are the bytes that were stored. -/
structure Fifo (g : IoData) : Prop where
  ok : g.pipe.Ok
  queue : g.stored.map Prod.snd = g.copied ++ g.pipe.buf.toList

/-- The bytes that a `pipewrite` has yet to store. -/
def IoPc.todo : IoPc → Option (List UInt8)
  | writeLoop bs | writeWake bs | writeSleep bs => some bs
  | _ => none

/-- Process `p` stored its bytes in order: a part of each buffer that it passed
to `pipewrite`, and all but `bs` of the last one when it is still there. -/
def Ordered (g : IoData) (p : PSlot) : Option (List UInt8) → Prop
  | none => ∃ ds, List.Forall₂ (· <+: ·) ds (g.writes p) ∧ bytesOf p g.stored = ds.flatten
  | some bs => ∃ cs ds d, g.writes p = cs ++ [d ++ bs] ∧ List.Forall₂ (· <+: ·) ds cs ∧
      bytesOf p g.stored = ds.flatten ++ d

variable {p q : PSlot} {proc : Proc} {g g' : IoData} {k : IoPc} {a : Act IoLock IoPc}

theorem Ordered.done {bs : List UInt8} (h : Ordered g p (some bs)) : Ordered g p none := by
  obtain ⟨cs, ds, d, hw, hds, hb⟩ := h
  refine ⟨ds ++ [d], ?_, by simp [hb]⟩
  rw [hw]
  exact List.rel_append hds (.cons (List.prefix_append d bs) .nil)

/-- A writer stores the first `n` of its bytes. -/
theorem Ordered.store {bs : List UInt8} (h : Ordered g p (some bs)) (n : ℕ)
    (hw : g'.writes = g.writes) (hs : g'.stored = g.stored ++ (bs.take n).map (p, ·)) :
    Ordered g' p (some (bs.drop n)) := by
  obtain ⟨cs, ds, d, hc, hds, hb⟩ := h
  refine ⟨cs, ds, d ++ bs.take n, ?_, hds, ?_⟩
  · rw [hw, hc, List.append_assoc, List.take_append_drop]
  · rw [hs, bytesOf_append, bytesOf_self, hb, List.append_assoc]

theorem Ordered.congr {o : Option (List UInt8)} (h : Ordered g q o)
    (hw : g'.writes q = g.writes q) (hs : bytesOf q g'.stored = bytesOf q g.stored) :
    Ordered g' q o := by
  cases o <;> simpa only [Ordered, hw, hs] using h

theorem Fifo.boot (data : Fin PIPESIZE → UInt8) : Fifo (ioBoot data) :=
  ⟨by simp [Pipe.Ok, Pipe.buf, RingBuf.size, ioBoot, Pipe.pipealloc],
    (RingBuf.toList_eq_nil (b := (ioBoot data).pipe.buf) rfl).symm⟩

theorem IoStep.fifo (h : IoStep p proc g k a g') (hi : Fifo g) : Fifo g' := by
  have hfill : ∀ bs, (g.stored ++ (bs.take (g.pipe.fill bs).2).map (p, ·)).map Prod.snd =
      g.copied ++ (g.pipe.fill bs).1.buf.toList := fun bs => by
    rw [(hi.ok.fill bs).2, ← List.append_assoc, ← hi.queue, List.map_append, List.map_map]
    simp [Function.comp_def]
  cases h with
  | @readCopy n _ =>
    obtain ⟨h1, h2⟩ := hi.ok.drain n
    exact ⟨h1, by rw [hi.queue, ← h2, List.append_assoc]⟩
  | @writeAll bs _ => exact ⟨(hi.ok.fill bs).1, hfill bs⟩
  | @writeErr bs _ _ => exact ⟨(hi.ok.fill bs).1, hfill bs⟩
  | @writeFull bs _ _ _ => exact ⟨(hi.ok.fill bs).1, hfill bs⟩
  | writeAcq => exact ⟨hi.ok, hi.queue⟩
  | @close w => cases w <;> exact ⟨hi.ok, hi.queue⟩
  | _ => exact hi

/-- The order of the bytes of the process that makes the step. -/
theorem IoStep.ordered_self (h : IoStep p proc g k a g') (hi : Ordered g p k.todo) :
    Ordered g' p (a.pc.control.bind IoPc.todo) := by
  cases h with
  | call x => cases x <;> exact hi
  | writeAcq =>
    obtain ⟨ds, hds, hb⟩ := hi
    exact ⟨g.writes p, ds, [], by simp, hds, by simpa using hb⟩
  | @writeAll bs _ => exact Ordered.done (hi.store (g.pipe.fill bs).2 rfl rfl)
  | @writeErr bs _ _ => exact Ordered.done (hi.store (g.pipe.fill bs).2 rfl rfl)
  | writeFull => exact hi.store _ rfl rfl
  | @close w => cases w <;> exact hi
  | _ => exact hi

/-- The others. -/
theorem IoStep.ordered_other (h : IoStep p proc g k a g') (hq : q ≠ p)
    {o : Option (List UInt8)} (hi : Ordered g q o) : Ordered g' q o := by
  cases h with
  | writeAcq => exact hi.congr (Function.update_of_ne hq ..) rfl
  | writeAll | writeErr | writeFull =>
    exact hi.congr rfl (by rw [bytesOf_append, bytesOf_ne hq, List.append_nil])
  | @close w => cases w <;> exact hi.congr rfl rfl
  | readCopy => exact hi.congr rfl rfl
  | _ => exact hi

def fifoInv : ClientInv ioClient IoPc.user where
  holds p o g := Fifo g ∧ Ordered g p (o.bind IoPc.todo)
  start _ _ := .rfl
  child := ioProg_child
  self h hi := ⟨(ioStep_of_prog h).fifo hi.1, (ioStep_of_prog h).ordered_self hi.2⟩
  other h hq hi := ⟨(ioStep_of_prog h).fifo hi.1, (ioStep_of_prog h).ordered_other hq hi.2⟩

/-- **Pipes are lossless FIFOs.**  The pipe has at most `PIPESIZE` bytes; the
bytes that all `piperead`s copied, followed by those in the pipe, are the bytes
that all `pipewrite`s stored; and the bytes of each process are those that it
passed to its `pipewrite`s, in this order, some of them not to the end.  This
holds at every step, and so whenever `p->lock` is free. -/
theorem Kern.pipe_fifo {data : Fin PIPESIZE → UInt8} {s : Kern ioClient}
    (h : Runs ioClient IoPc.user (ioBoot data) s) :
    let g : IoData := s.g
    (g.pipe.nwrite - g.pipe.nread).toNat ≤ PIPESIZE ∧
    g.copied ++ g.pipe.buf.toList = g.stored.map Prod.snd ∧
    ∀ p, ∃ ds, List.Forall₂ (· <+: ·) ds (g.writes p) ∧ bytesOf p g.stored = ds.flatten := by
  have hi := fifoInv.of_runs (fun p => ⟨.boot data, [], .nil, rfl⟩) h
  refine ⟨(hi 0).1.ok, (hi 0).1.queue.symm, fun p => ?_⟩
  have hp : Ordered s.g p _ := (hi p).2
  rcases ho : (s.pc p).control.bind IoPc.todo with _ | bs
  · rw [ho] at hp; exact hp
  · rw [ho] at hp; exact hp.done

/-- init writes three bytes to the pipe and reads two of them. -/
def pipeRun : List (ℕ × Label IoCall) :=
  List.replicate 4 (0, .go) ++ [(0, .client (.pipewrite [1, 2, 3])), (0, .client (.piperead 0)),
    (0, .client (.piperead 0)), (0, .client (.piperead 0)), (0, .go), (0, .go),
    (0, .client (.piperead 0)), (0, .client (.piperead 2)), (0, .client (.piperead 0)),
    (0, .client (.piperead 0)), (0, .client (.piperead 0)), (0, .go), (0, .go),
    (0, .client (.piperead 0))]

def pipeEnd : Transition.Reached (Runs ioClient IoPc.user (ioBoot fun _ => 0)) fun s =>
    s.lock IoLock.pipe = none && (IoData.copied s.g = [1, 2] && (IoData.stored s.g).map Prod.snd = [1, 2, 3]) :=
  Runs.ofNext pipeRun (by decide +kernel)

theorem Kern.pipe_fifo_run : ∃ s : Kern ioClient,
    Runs ioClient IoPc.user (ioBoot fun _ => 0) s ∧ s.lock IoLock.pipe = none ∧
    IoData.copied s.g = [1, 2] ∧ IoData.copied s.g ++ (IoData.pipe s.g).buf.toList = [1, 2, 3] := by
  obtain ⟨s, hs, hP⟩ := pipeEnd
  obtain ⟨hl, hP⟩ := Bool.and_eq_true_iff.1 hP
  obtain ⟨hc, hst⟩ := Bool.and_eq_true_iff.1 hP
  exact ⟨s, hs, of_decide_eq_true hl, of_decide_eq_true hc,
    (pipe_fifo hs).2.1.trans (of_decide_eq_true hst)⟩

end Xv6
