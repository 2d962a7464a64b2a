/-
  `commit` and `recover_from_log` (`log.c`) as sequential programs over a disk,
  and their behaviour under crashes.

  A `Mach` is what these functions see: the contents `bread` returns (`mem`),
  the disk, and the disk writes made so far.  Every `bwrite` replaces one disk
  block.  A crash keeps the disk as the first `k` writes of the interrupted
  function left it (`crashDisk`) and loses everything else, so that recovery
  starts with `mem = disk` (`boot`).

  The disks that can be found after a crash fall in two classes, which every
  single disk write of `commit` and of `recover_from_log` keeps: the on-disk
  header is empty and the home blocks are those of some map (`Clean`), or the
  header lists a transaction whose new contents are all in the log
  (`Committed`).
-/
import Xv6.Log.Header
import Xv6.Lib.Redo

namespace Xv6

open Redo Function

/-! ## The code -/

/-- What the code of `log.c` sees of the buffer cache and the disk. -/
structure Mach where
  /-- the contents of each block as `bread` returns them -/
  mem : Disk
  disk : Disk
  /-- the disk writes made so far, in order -/
  writes : List (BlockNo × Block)

namespace Mach

/-- `bread(log.dev, b)->data`. -/
def bread (m : Mach) (b : BlockNo) : Block := m.mem b

/-- Fill the buffer of block `b` with `v` and `bwrite` it. -/
def bwrite (m : Mach) (b : BlockNo) (v : Block) : Mach where
  mem := update m.mem b v
  disk := update m.disk b v
  writes := m.writes ++ [(b, v)]

/-- A machine that has just started with disk `d`: nothing is cached. -/
def boot (d : Disk) : Mach := ⟨d, d, []⟩

end Mach

section
variable (a : LogArea)

/-- The loop body of `write_log`: copy the cached block `b` to log block
    `tail + 1`. -/
def writeLogBody (b : BlockNo) (tail : ℕ) (m : Mach) : Mach :=
  m.bwrite (a.blk (tail + 1)) (m.bread b)

/-- The loop of `write_log` from `tail` on. -/
def writeLogFrom : List BlockNo → ℕ → Mach → Mach
  | [], _, m => m
  | b :: bs, tail, m => writeLogFrom bs (tail + 1) (writeLogBody a b tail m)

/-- Copy modified blocks from cache to log. -/
def writeLog (lh : List BlockNo) (m : Mach) : Mach := writeLogFrom a lh 0 m

/-- The loop body of `install_trans`: copy log block `tail + 1` to its home
    location `b`. -/
def installTransBody (b : BlockNo) (tail : ℕ) (m : Mach) : Mach :=
  m.bwrite b (m.bread (a.blk (tail + 1)))

/-- The loop of `install_trans` from `tail` on. -/
def installTransFrom : List BlockNo → ℕ → Mach → Mach
  | [], _, m => m
  | b :: bs, tail, m => installTransFrom bs (tail + 1) (installTransBody a b tail m)

/-- Copy committed blocks from log to their home location. -/
def installTrans (lh : List BlockNo) (m : Mach) : Mach := installTransFrom a lh 0 m

/-- Write in-memory log header to disk. -/
def writeHead (lh : List BlockNo) (m : Mach) : Mach :=
  m.bwrite a.head (encodeHead lh (m.bread a.head))

/-- Read the log header from disk into the in-memory log header. -/
def readHead (m : Mach) : Option (List BlockNo) := decodeHead (m.bread a.head)

def recoverFromLog (m : Mach) : Option Mach := do
  let lh ← readHead a m
  let m := installTrans a lh m   -- if committed, copy from log to disk
  return writeHead a [] m        -- `log.lh.n = 0`: clear the log

def commit (lh : List BlockNo) (m : Mach) : Mach :=
  if 0 < lh.length then
    let m := writeLog a lh m      -- write modified blocks from cache to log
    let m := writeHead a lh m     -- write header to disk: the real commit
    let m := installTrans a lh m  -- now install writes to home locations
    writeHead a [] m              -- `log.lh.n = 0`: erase the transaction from the log
  else m

end

/-! ## Crashes -/

/-- The disk `d`, after the first `k` disk writes of a run that ended in `m`. -/
def crashDisk (d : Disk) (m : Mach) (k : ℕ) : Disk := redo (m.writes.take k) d

/-- `d'` is what is left of `d` after any number of recoveries that were
    themselves cut off, each after any number of its disk writes. -/
inductive Crashes (a : LogArea) (d : Disk) : Disk → Prop
  | none : Crashes a d d
  | more {d' : Disk} {m : Mach} (k : ℕ) : Crashes a d d' →
      recoverFromLog a (.boot d') = some m → Crashes a d (crashDisk d' m k)

/-- The blocks outside the log area are the same. -/
def HomeEq (a : LogArea) (d e : Disk) : Prop := ∀ b, ¬ a.Mem b → d b = e b

/-- The header is empty and the home blocks are those of `base`. -/
structure Clean (a : LogArea) (base d : Disk) : Prop where
  head : headN (d a.head) = 0
  home : HomeEq a d base

/-- The header lists the blocks `lh`, whose contents in `new` are in the log;
    the other home blocks are those of `new`. -/
structure Committed (a : LogArea) (lh : List BlockNo) (new d : Disk) : Prop where
  head : decodeHead (d a.head) = some lh
  log : ∀ i (h : i < lh.length), d (a.blk (i + 1)) = new lh[i]
  home : ∀ b, ¬ a.Mem b → b ∉ lh → d b = new b

/-! ## The disk writes of each function -/

namespace Mach

/-- Make a list of disk writes. -/
def bwrites (m : Mach) (ws : List (BlockNo × Block)) : Mach where
  mem := redo ws m.mem
  disk := redo ws m.disk
  writes := m.writes ++ ws

theorem bwrites_nil (m : Mach) : m.bwrites [] = m := by simp [bwrites]

theorem bwrite_bwrites (m : Mach) (b : BlockNo) (v : Block) (ws : List (BlockNo × Block)) :
    (m.bwrite b v).bwrites ws = m.bwrites ((b, v) :: ws) := by
  simp [bwrites, bwrite]

theorem bwrites_bwrite (m : Mach) (b : BlockNo) (v : Block) (ws : List (BlockNo × Block)) :
    (m.bwrites ws).bwrite b v = m.bwrites (ws ++ [(b, v)]) := by
  simp [bwrites, bwrite, redo_append]

theorem bwrites_append (m : Mach) (ws vs : List (BlockNo × Block)) :
    (m.bwrites ws).bwrites vs = m.bwrites (ws ++ vs) := by
  simp [bwrites, redo_append]

end Mach

section
variable (a : LogArea) (c : Disk)

/-- The writes of `write_log` from `tail` on, for cached contents `c`. -/
def logWrites : List BlockNo → ℕ → List (BlockNo × Block)
  | [], _ => []
  | b :: bs, tail => (a.blk (tail + 1), c b) :: logWrites bs (tail + 1)

/-- The writes of `install_trans` from `tail` on, for log contents `c`. -/
def homeWrites : List BlockNo → ℕ → List (BlockNo × Block)
  | [], _ => []
  | b :: bs, tail => (b, c (a.blk (tail + 1))) :: homeWrites bs (tail + 1)

variable {a c}

@[simp] theorem length_logWrites : ∀ (lh : List BlockNo) (tail : ℕ),
    (logWrites a c lh tail).length = lh.length
  | [], _ => rfl
  | _ :: bs, tail => by simp [logWrites, length_logWrites bs]

@[simp] theorem length_homeWrites : ∀ (lh : List BlockNo) (tail : ℕ),
    (homeWrites a c lh tail).length = lh.length
  | [], _ => rfl
  | _ :: bs, tail => by simp [homeWrites, length_homeWrites bs]

theorem getElem_logWrites : ∀ (lh : List BlockNo) (tail : ℕ) {i : ℕ}
    (h : i < (logWrites a c lh tail).length) (h' : i < lh.length),
    (logWrites a c lh tail)[i] = (a.blk (tail + i + 1), c lh[i])
  | b :: bs, tail, 0, _, _ => rfl
  | b :: bs, tail, i + 1, h, h' => by
    simp only [logWrites, List.getElem_cons_succ]
    rw [getElem_logWrites bs (tail + 1), show tail + 1 + i = tail + (i + 1) by omega]

theorem getElem_homeWrites : ∀ (lh : List BlockNo) (tail : ℕ) {i : ℕ}
    (h : i < (homeWrites a c lh tail).length) (h' : i < lh.length),
    (homeWrites a c lh tail)[i] = (lh[i], c (a.blk (tail + i + 1)))
  | b :: bs, tail, 0, _, _ => rfl
  | b :: bs, tail, i + 1, h, h' => by
    simp only [homeWrites, List.getElem_cons_succ]
    rw [getElem_homeWrites bs (tail + 1), show tail + 1 + i = tail + (i + 1) by omega]

theorem mem_logWrites {lh : List BlockNo} {tail : ℕ} {w : BlockNo × Block}
    (h : w ∈ logWrites a c lh tail) :
    ∃ i, ∃ h : i < lh.length, w = (a.blk (tail + i + 1), c lh[i]) := by
  obtain ⟨i, hi, rfl⟩ := List.getElem_of_mem h
  rw [length_logWrites] at hi
  exact ⟨i, hi, getElem_logWrites _ _ _ hi⟩

theorem mem_homeWrites {lh : List BlockNo} {tail : ℕ} {w : BlockNo × Block}
    (h : w ∈ homeWrites a c lh tail) :
    ∃ i, ∃ h : i < lh.length, w = (lh[i], c (a.blk (tail + i + 1))) := by
  obtain ⟨i, hi, rfl⟩ := List.getElem_of_mem h
  rw [length_homeWrites] at hi
  exact ⟨i, hi, getElem_homeWrites _ _ _ hi⟩

theorem homeWrites_fst : ∀ (lh : List BlockNo) (tail : ℕ),
    (homeWrites a c lh tail).map Prod.fst = lh
  | [], _ => rfl
  | b :: bs, tail => by simp [homeWrites, homeWrites_fst bs]

theorem logWrites_congr {c' : Disk} : ∀ (lh : List BlockNo) (tail : ℕ), (∀ b ∈ lh, c b = c' b) →
    logWrites a c lh tail = logWrites a c' lh tail
  | [], _, _ => rfl
  | b :: bs, tail, h => by
    rw [logWrites, logWrites, h b (by simp),
      logWrites_congr bs _ fun b' hb' => h b' (by simp [hb'])]

theorem homeWrites_congr {c' : Disk} : ∀ (lh : List BlockNo) (tail : ℕ),
    (∀ i < lh.length, c (a.blk (tail + i + 1)) = c' (a.blk (tail + i + 1))) →
    homeWrites a c lh tail = homeWrites a c' lh tail
  | [], _, _ => rfl
  | b :: bs, tail, h => by
    have h0 := h 0 (by simp)
    have ht : homeWrites a c bs (tail + 1) = homeWrites a c' bs (tail + 1) :=
      homeWrites_congr bs (tail + 1) fun i hi => by
        have := h (i + 1) (by simpa using hi)
        rwa [show tail + (i + 1) = tail + 1 + i by omega] at this
    rw [Nat.add_zero] at h0
    rw [homeWrites, homeWrites, ht, h0]

end

section
variable {a : LogArea}

/-- The writes of `write_log` only depend on the cached home blocks, which
    they do not touch. -/
theorem writeLogFrom_eq : ∀ (lh : List BlockNo) (tail : ℕ) (m : Mach), (∀ b ∈ lh, ¬ a.Mem b) →
    tail + lh.length < a.size → writeLogFrom a lh tail m = m.bwrites (logWrites a m.mem lh tail)
  | [], _, m, _, _ => m.bwrites_nil.symm
  | b :: bs, tail, m, hout, hl => by
    simp only [List.length_cons] at hl
    have hne : ∀ b' ∈ bs, b' ≠ a.blk (tail + 1) := fun b' hb' =>
      (LogArea.ne_of_not_mem (hout b' (by simp [hb'])) (LogArea.blk_mem (by omega))).symm
    rw [writeLogFrom, writeLogFrom_eq bs _ _ (fun b' hb' => hout b' (by simp [hb'])) (by omega),
      writeLogBody, Mach.bwrite_bwrites, logWrites, Mach.bread]
    congr 2
    exact logWrites_congr _ _ fun b' hb' => update_of_ne (hne b' hb') _ _

/-- The writes of `install_trans` only depend on the log blocks, which they do
    not touch. -/
theorem installTransFrom_eq : ∀ (lh : List BlockNo) (tail : ℕ) (m : Mach), (∀ b ∈ lh, ¬ a.Mem b) →
    tail + lh.length < a.size →
    installTransFrom a lh tail m = m.bwrites (homeWrites a m.mem lh tail)
  | [], _, m, _, _ => m.bwrites_nil.symm
  | b :: bs, tail, m, hout, hl => by
    simp only [List.length_cons] at hl
    rw [installTransFrom,
      installTransFrom_eq bs _ _ (fun b' hb' => hout b' (by simp [hb'])) (by omega),
      installTransBody, Mach.bwrite_bwrites, homeWrites, Mach.bread]
    congr 2
    refine homeWrites_congr _ _ fun i hi => update_of_ne ?_ _ _
    exact LogArea.ne_of_not_mem (hout b (by simp)) (LogArea.blk_mem (by omega))

end

/-! ## Transactions -/

/-- A transaction the log can hold: distinct home blocks, as many as fit in
    `log.lh.block` and in the log area behind the header. -/
structure Trans (a : LogArea) where
  block : List BlockNo
  nodup : block.Nodup
  home : ∀ b ∈ block, ¬ a.Mem b
  array : block.length ≤ LOGSIZE
  room : block.length ≤ a.size - 1

section
variable {a : LogArea} {base new d : Disk}

namespace Trans

theorem lt_size (t : Trans a) : t.block.length < a.size := by
  have := t.room; have := a.pos; omega

/-- Log block `i` of the transaction. -/
theorem blk_mem (t : Trans a) {i : ℕ} (hi : i < t.block.length) : a.Mem (a.blk (i + 1)) :=
  LogArea.blk_mem (by have := t.lt_size; omega)

theorem blk_ne_head (t : Trans a) {i : ℕ} (hi : i < t.block.length) : a.blk (i + 1) ≠ a.head :=
  LogArea.blk_ne_head (by have := t.lt_size; omega)

theorem ne_head (t : Trans a) {b : BlockNo} (hb : b ∈ t.block) : b ≠ a.head :=
  (LogArea.ne_of_not_mem (t.home b hb) LogArea.head_mem).symm

theorem logWrites_nodup (t : Trans a) (c : Disk) :
    ((logWrites a c t.block 0).map Prod.fst).Nodup := by
  refine List.nodup_iff_injective_getElem.2 ?_
  rintro ⟨i, hi⟩ ⟨j, hj⟩ h
  simp only [List.length_map, length_logWrites] at hi hj
  simp only [List.getElem_map, getElem_logWrites t.block 0 _ hi,
    getElem_logWrites t.block 0 _ hj] at h
  have := t.lt_size
  have := LogArea.blk_inj (by omega) (by omega) h
  exact Fin.ext (by simp only; omega)

end Trans

/-! ## What the disk writes preserve -/

/-- Writes to log blocks keep the disk clean. -/
theorem Clean.log_writes (h : Clean a base d) {ws : List (BlockNo × Block)}
    (hws : ∀ w ∈ ws, a.Mem w.1 ∧ w.1 ≠ a.head) : Clean a base (redo ws d) where
  head := by rw [redo_notMem _ fun w hw => (hws w hw).2]; exact h.head
  home b hb := by
    rw [redo_notMem _ fun w hw => LogArea.ne_of_not_mem hb (hws w hw).1]; exact h.home b hb

/-- Clearing the header keeps the disk clean. -/
theorem Clean.clear (h : HomeEq a d base) (hb : Block) :
    Clean a base (update d a.head (encodeHead [] hb)) where
  head := by rw [update_self]; exact headN_encodeHead (Nat.zero_le _) hb
  home b hb' := by
    rw [update_of_ne (LogArea.ne_of_not_mem hb' LogArea.head_mem).symm]; exact h b hb'

/-- **The commit point**: once the log blocks are written, writing the header
    commits the transaction. -/
theorem Committed.of_log (t : Trans a) (hb : Block)
    (hd : ∀ b, ¬ a.Mem b → b ∉ t.block → d b = new b)
    (hlog : ∀ i (h : i < t.block.length), d (a.blk (i + 1)) = new t.block[i]) :
    Committed a t.block new (update d a.head (encodeHead t.block hb)) where
  head := by rw [update_self]; exact decodeHead_encodeHead t.array hb
  log i hi := by rw [update_of_ne (t.blk_ne_head hi)]; exact hlog i hi
  home b hb' hn := by
    rw [update_of_ne (LogArea.ne_of_not_mem hb' LogArea.head_mem).symm]; exact hd b hb' hn

variable {t : Trans a}

/-- Writes to the home blocks of the transaction keep it committed. -/
theorem Committed.home_writes (h : Committed a t.block new d) {ws : List (BlockNo × Block)}
    (hws : ∀ w ∈ ws, w.1 ∈ t.block) :
    Committed a t.block new (redo ws d) where
  head := by rw [redo_notMem _ fun w hw => t.ne_head (hws w hw)]; exact h.head
  log i hi := by
    rw [redo_notMem _ fun w hw =>
      (LogArea.ne_of_not_mem (t.home _ (hws w hw)) (t.blk_mem hi)).symm]
    exact h.log i hi
  home b hb hn := by
    have hne : ∀ w ∈ ws, w.1 ≠ b := fun w hw hx => hn (hx ▸ hws w hw)
    rw [redo_notMem _ hne]; exact h.home b hb hn

/-- The home writes of `install_trans` carry the new contents. -/
theorem Committed.install (h : Committed a t.block new d) :
    HomeEq a (redo (homeWrites a d t.block 0) d) new := by
  intro b hb
  by_cases hm : b ∈ t.block
  · obtain ⟨i, hi, rfl⟩ := List.getElem_of_mem hm
    refine redo_mem _ ((homeWrites_fst t.block 0).symm ▸ t.nodup) ?_
    rw [← h.log i hi]
    have hi' : i < (homeWrites a d t.block 0).length := by simpa using hi
    have hw := getElem_homeWrites (a := a) (c := d) t.block 0 hi' hi
    rw [Nat.zero_add] at hw
    exact hw ▸ List.getElem_mem hi'
  · rw [redo_notMem, h.home b hb hm]
    intro w hw hx
    obtain ⟨i, hi, rfl⟩ := mem_homeWrites hw
    exact hm (hx ▸ List.getElem_mem hi)

/-! ## Recovery -/

/-- The disk writes of a recovery that finds the transaction `t`. -/
theorem recover_eq (t : Trans a) (h : decodeHead (d a.head) = some t.block) :
    ∃ hb, recoverFromLog a (.boot d) =
      some ((Mach.boot d).bwrites (homeWrites a d t.block 0 ++ [(a.head, encodeHead [] hb)])) := by
  have hr : readHead a (.boot d) = some t.block := h
  have hi := installTransFrom_eq t.block 0 (.boot d) t.home (by have := t.lt_size; omega)
  rw [recoverFromLog, hr]
  simp only [Option.bind_eq_bind, Option.bind_some, installTrans, hi, writeHead,
    Mach.bwrites_bwrite]
  exact ⟨_, rfl⟩

/-- The empty transaction. -/
def Trans.empty (a : LogArea) : Trans a := ⟨[], .nil, by simp, by simp, by simp⟩

/-- **Recovery of a clean disk** runs to its end, and it and all its crash
    points leave the disk clean. -/
theorem Clean.recover (h : Clean a base d) :
    ∃ m, recoverFromLog a (.boot d) = some m ∧ Clean a base m.disk ∧
      ∀ k, Clean a base (crashDisk d m k) := by
  obtain ⟨hb, hr⟩ := recover_eq (Trans.empty a) (decodeHead_of_zero h.head)
  refine ⟨_, hr, Clean.clear h.home hb, fun k => ?_⟩
  rcases k with _ | k
  · exact h
  · simpa [crashDisk, Mach.bwrites, Mach.boot, Trans.empty, homeWrites] using Clean.clear h.home hb

/-- **Recovery of a committed transaction** runs to its end and installs it;
    its crash points leave the transaction committed or installed. -/
theorem Committed.recover (h : Committed a t.block new d) :
    ∃ m, recoverFromLog a (.boot d) = some m ∧ Clean a new m.disk ∧
      ∀ k, Committed a t.block new (crashDisk d m k) ∨ Clean a new (crashDisk d m k) := by
  obtain ⟨hb, hr⟩ := recover_eq t h.head
  have hfin : Clean a new (redo (homeWrites a d t.block 0 ++ [(a.head, encodeHead [] hb)]) d) := by
    rw [redo_append]; exact Clean.clear h.install hb
  refine ⟨_, hr, hfin, fun k => ?_⟩
  simp only [crashDisk, Mach.bwrites, Mach.boot, List.nil_append]
  rcases Nat.lt_or_ge k (homeWrites a d t.block 0 ++ [(a.head, encodeHead [] hb)]).length with
    hk | hk
  · -- cut off before the header is cleared: only home blocks of the transaction were written
    left
    rw [List.take_append_of_le_length (by simp at hk ⊢; omega)]
    refine h.home_writes fun w hw => ?_
    obtain ⟨i, hi, rfl⟩ := mem_homeWrites (List.mem_of_mem_take hw)
    exact List.getElem_mem hi
  · right; rw [List.take_of_length_le hk]; exact hfin

theorem Clean.crashes {d' : Disk} (h : Clean a base d) (hc : Crashes a d d') : Clean a base d' := by
  induction hc with
  | none => exact h
  | more k _ hr ih =>
    obtain ⟨m, hm, -, hk⟩ := ih.recover
    obtain rfl := Option.some.inj (hm.symm.trans hr)
    exact hk k

theorem Committed.crashes {d' : Disk} (h : Committed a t.block new d ∨ Clean a new d)
    (hc : Crashes a d d') : Committed a t.block new d' ∨ Clean a new d' := by
  induction hc with
  | none => exact h
  | more k _ hr ih =>
    rcases ih with ih | ih
    · obtain ⟨m, hm, -, hk⟩ := ih.recover
      obtain rfl := Option.some.inj (hm.symm.trans hr)
      exact hk k
    · obtain ⟨m, hm, -, hk⟩ := ih.recover
      obtain rfl := Option.some.inj (hm.symm.trans hr)
      exact Or.inr (hk k)

/-! ## Commit -/

/-- The machine at the start of `commit`: the blocks of the transaction are
    pinned in the cache with contents `cached`, every other block reads as it
    is on disk. -/
def atCommit (lh : List BlockNo) (cached d : Disk) : Mach where
  mem b := if b ∈ lh then cached b else d b
  disk := d
  writes := []

/-- The disk writes of `commit`. -/
theorem commit_eq (t : Trans a) (hn : 0 < t.block.length) (m : Mach) :
    ∃ hb hb', commit a t.block m = m.bwrites (logWrites a m.mem t.block 0 ++
      (a.head, encodeHead t.block hb) ::
      (homeWrites a (redo (logWrites a m.mem t.block 0) m.mem) t.block 0 ++
        [(a.head, encodeHead [] hb')])) := by
  have hlt := t.lt_size
  set L := logWrites a m.mem t.block 0
  set h := (a.head, encodeHead t.block (redo L m.mem a.head))
  set I := homeWrites a (redo L m.mem) t.block 0
  have h1 : writeLog a t.block m = m.bwrites L := writeLogFrom_eq _ _ _ t.home (by omega)
  have h2 : writeHead a t.block (m.bwrites L) = m.bwrites (L ++ [h]) := Mach.bwrites_bwrite ..
  have h3 : installTrans a t.block (m.bwrites (L ++ [h])) = m.bwrites (L ++ [h] ++ I) := by
    rw [installTrans, installTransFrom_eq _ _ _ t.home (by omega), Mach.bwrites_append]
    congr 2
    refine homeWrites_congr _ _ fun i hi => ?_
    rw [Nat.zero_add, Mach.bwrites, redo_append]
    exact update_of_ne (t.blk_ne_head hi) _ _
  refine ⟨redo L m.mem a.head, redo (L ++ [h] ++ I) m.mem a.head, ?_⟩
  simp only [commit, if_pos hn, h1, h2, h3]
  rw [writeHead, Mach.bwrites_bwrite]
  simp only [List.append_assoc, List.cons_append, List.nil_append]
  rfl

/-- Every crash point of `commit`: before the first `write_head` the disk is
    clean with the old contents, from then on the transaction is committed or
    installed. -/
theorem commit_crash (t : Trans a) (m : Mach) (h0 : headN (m.disk a.head) = 0)
    (hm : ∀ b, b ∉ t.block → m.mem b = m.disk b) (hw : m.writes = []) (k : ℕ) :
    (k ≤ t.block.length ∧ Clean a m.disk (crashDisk m.disk (commit a t.block m) k)) ∨
      Committed a t.block m.mem (crashDisk m.disk (commit a t.block m) k) ∨
      Clean a m.mem (crashDisk m.disk (commit a t.block m) k) := by
  have hclean : Clean a m.disk m.disk := ⟨h0, fun _ _ => rfl⟩
  rcases Nat.eq_zero_or_pos t.block.length with hn | hn
  · -- an empty transaction makes no write; old and new contents are the same
    have hmem : m.mem = m.disk := funext fun b => hm b (by simp [List.length_eq_zero_iff.1 hn])
    have hd : crashDisk m.disk (commit a t.block m) k = m.disk := by
      simp [crashDisk, commit, hn, hw]
    rw [hd, hmem]
    exact Or.inr (Or.inr hclean)
  obtain ⟨hb, hb', hc⟩ := commit_eq t hn m
  set L := logWrites a m.mem t.block 0
  set I := homeWrites a (redo L m.mem) t.block 0
  have hL : L.length = t.block.length := length_logWrites _ _
  have hLlog : ∀ w ∈ L, a.Mem w.1 ∧ w.1 ≠ a.head := by
    intro w hw
    obtain ⟨i, hi, rfl⟩ := mem_logWrites hw
    rw [Nat.zero_add]
    exact ⟨t.blk_mem hi, t.blk_ne_head hi⟩
  -- the log blocks hold the cached contents once all of them are written
  have hlog : ∀ c : Disk, ∀ i (hi : i < t.block.length),
      redo L c (a.blk (i + 1)) = m.mem t.block[i] := by
    intro c i hi
    refine redo_mem _ (t.logWrites_nodup _) ?_
    have hi' : i < L.length := hL ▸ hi
    have hg := getElem_logWrites (a := a) (c := m.mem) t.block 0 hi' hi
    rw [Nat.zero_add] at hg
    exact hg ▸ List.getElem_mem hi'
  have hcom : Committed a t.block m.mem
      (redo (L ++ [(a.head, encodeHead t.block hb)]) m.disk) := by
    rw [redo_append]
    refine Committed.of_log t hb (fun b hb' hn' => ?_) (hlog m.disk)
    rw [(hclean.log_writes hLlog).home b hb', hm b hn']
  have hI : ∀ w ∈ I, w.1 ∈ t.block := by
    intro w hw
    obtain ⟨i, hi, rfl⟩ := mem_homeWrites hw
    exact List.getElem_mem hi
  simp only [crashDisk, hc, Mach.bwrites, hw, List.nil_append]
  rcases Nat.lt_or_ge t.block.length k with hk | hk
  · right
    obtain ⟨j, rfl⟩ : ∃ j, k = L.length + (j + 1) := ⟨k - L.length - 1, by omega⟩
    rw [List.take_length_add_append, List.take_succ_cons,
      show L ++ (a.head, encodeHead t.block hb) :: (I ++ [(a.head, encodeHead [] hb')]).take j =
        (L ++ [(a.head, encodeHead t.block hb)]) ++ (I ++ [(a.head, encodeHead [] hb')]).take j
        by simp,
      redo_append]
    rcases Nat.lt_or_ge j (I ++ [(a.head, encodeHead [] hb')]).length with hj | hj
    · left
      rw [List.take_append_of_le_length (by simp at hj ⊢; omega)]
      exact hcom.home_writes fun w hw => hI w (List.mem_of_mem_take hw)
    · right
      have hIe : I =
          homeWrites a (redo (L ++ [(a.head, encodeHead t.block hb)]) m.disk) t.block 0 :=
        homeWrites_congr _ _ fun i hi => by
          rw [Nat.zero_add, hlog m.mem i hi, hcom.log i hi]
      rw [List.take_of_length_le hj, redo_append, hIe]
      exact Clean.clear hcom.install hb'
  · left
    rw [List.take_append_of_le_length (by omega)]
    exact ⟨hk, hclean.log_writes fun w hw => hLlog w (List.mem_of_mem_take hw)⟩

/-- **A crash cannot leave a transaction half done.**  Let `commit` start with
    the transaction `t`, cached contents `cached` and an empty on-disk header,
    and let the machine stop after `k` of its disk writes and then at any
    points of any number of recoveries.  The next recovery that runs to its
    end leaves an empty header and the home blocks either all as they were or
    with all blocks of `t` replaced by their cached contents; the latter
    whenever the crash came after the first `write_head`, the disk write that
    follows those of `write_log`. -/
theorem commit_crash_atomic (t : Trans a) (cached d : Disk) (h0 : headN (d a.head) = 0) (k : ℕ)
    {d' : Disk} (hd' : Crashes a
      (crashDisk d (commit a t.block (atCommit t.block cached d)) k) d') :
    ∃ m, recoverFromLog a (.boot d') = some m ∧ headN (m.disk a.head) = 0 ∧
      (HomeEq a m.disk d ∨ HomeEq a m.disk fun b => if b ∈ t.block then cached b else d b) ∧
      (0 < t.block.length →
        (writeLog a t.block (atCommit t.block cached d)).writes.length < k →
        HomeEq a m.disk fun b => if b ∈ t.block then cached b else d b) := by
  have hwl : (writeLog a t.block (atCommit t.block cached d)).writes.length = t.block.length := by
    have := t.lt_size
    rw [writeLog, writeLogFrom_eq _ _ _ t.home (by omega)]
    simp [Mach.bwrites, atCommit]
  rw [hwl]
  rcases commit_crash t (atCommit t.block cached d) h0 (fun b hb => if_neg hb) rfl k with
    ⟨hk, h⟩ | h
  · obtain ⟨m, hm, hc, -⟩ := (h.crashes hd').recover
    exact ⟨m, hm, hc.head, Or.inl hc.home, fun _ hk' => absurd hk' (by omega)⟩
  · rcases Committed.crashes h hd' with h | h
    · obtain ⟨m, hm, hc, -⟩ := h.recover
      exact ⟨m, hm, hc.head, Or.inr hc.home, fun _ _ => hc.home⟩
    · obtain ⟨m, hm, hc, -⟩ := h.recover
      exact ⟨m, hm, hc.head, Or.inr hc.home, fun _ _ => hc.home⟩

/-- A transaction of two blocks. -/
def Trans.two : Trans mkfsLog where
  block := [100, 101]
  nodup := by decide
  home := List.forall_mem_cons.2 ⟨by decide, List.forall_mem_singleton.2 (by decide)⟩
  array := by decide
  room := by decide

/-- Two blocks on an empty `mkfs` image, cut off right after the first `write_head`. -/
theorem commit_crash_atomic_two :
    let d : Disk := fun _ _ => 0
    let cached : Disk := fun _ _ => 7
    headN (d mkfsLog.head) = 0 ∧
      ∃ m, recoverFromLog mkfsLog (.boot (crashDisk d
          (commit mkfsLog Trans.two.block (atCommit Trans.two.block cached d)) 3)) = some m ∧
        HomeEq mkfsLog m.disk fun b => if b ∈ Trans.two.block then cached b else d b := by
  refine ⟨by decide, ?_⟩
  obtain ⟨m, hm, -, -, h⟩ := commit_crash_atomic Trans.two (fun _ _ => 7) (fun _ _ => 0)
    (by decide) 3 .none
  exact ⟨m, hm, h (by decide) (by decide)⟩

end

end Xv6
