/-
  The list of the buffers (`bio.c`), with its links.

  `Bcache` keeps the buffers in a list; here they are linked through `prev` and
  `next` as in `bio.c`, and `binit`, `bget` and `brelse` change the links one by
  one.  `none` is `&bcache.head`.  The linked cache represents a `Bcache`
  (`Represents`) and its functions do the same, so that what holds of the list holds
  of the links.  The list is in the order of the last releases: a buffer that
  `bget` recycles is the one that was released longest ago.
-/
import Xv6.Lib.Links
import Xv6.Lib.Reach
import Xv6.Bio.Cache

namespace Xv6

open Ring Transition

/-! ## `bio.c` -/

structure LinkedBcache where
  buf : Fin NBUF → Buf
  links : Links (Option (Fin NBUF))

namespace LinkedBcache

def binit : LinkedBcache where
  buf _ := ⟨false, false, 0, 0, none, 0, fun _ => 0⟩
  links := (List.finRange NBUF).foldl (fun s b => s.insert none (some b)) ⟨fun _ => none, fun _ => none⟩

/-- Is the block already cached? -/
def find (c : LinkedBcache) (dev : UInt32) (b : BlockNo) : Option (Fin NBUF) :=
  scan (fun i => (c.buf i).dev = dev ∧ (c.buf i).blockno = b) c.links.next NBUF (c.links.next none)

/-- The unused and clean buffer that `bget` recycles. -/
def victim (c : LinkedBcache) : Option (Fin NBUF) :=
  scan (fun i => (c.buf i).refcnt = 0 ∧ (c.buf i).dirty = false) c.links.prev NBUF (c.links.prev none)

def set (c : LinkedBcache) (i : Fin NBUF) (b : Buf) : LinkedBcache :=
  { c with buf := Function.update c.buf i b }

/-- The locked section of `bget`; `none` is the panic. -/
def bget (c : LinkedBcache) (dev : UInt32) (b : BlockNo) : Option (LinkedBcache × Fin NBUF) :=
  match c.find dev b with
  | some i => some (c.set i { c.buf i with refcnt := (c.buf i).refcnt + 1 }, i)
  | none =>
    match c.victim with
    | some i =>
      some (c.set i { c.buf i with
        dev := dev, blockno := b, valid := false, dirty := false, refcnt := 1 }, i)
    | none => none

/-- The locked section of `brelse`, after `releasesleep`. -/
def brelse (c : LinkedBcache) (i : Fin NBUF) : LinkedBcache :=
  let b := { c.buf i with refcnt := (c.buf i).refcnt - 1 }
  let c := c.set i b
  -- no one is waiting for it
  if b.refcnt = 0 then { c with links := (c.links.remove (some i)).insert none (some i) } else c

/-! ## The list -/

/-- The links go through the buffers in the order of the list. -/
structure Represents (c : LinkedBcache) (b : Bcache) : Prop where
  buf : c.buf = b.buf
  circle : Circle c.links none (b.order.map some)
  all : ∀ i, i ∈ b.order

variable {c c' : LinkedBcache} {b : Bcache} {i : Fin NBUF} {dev : UInt32} {bn : BlockNo}

theorem Represents.nodup (h : Represents c b) : b.order.Nodup :=
  (List.nodup_cons.1 h.circle.nodup).2.of_map _

theorem Represents.length (h : Represents c b) : b.order.length = NBUF := by
  have hperm : b.order.Perm (List.finRange NBUF) :=
    (List.perm_ext_iff_of_nodup h.nodup (List.nodup_finRange NBUF)).2 fun i => by
      simp only [h.all i, List.mem_finRange]
  rw [hperm.length_eq, List.length_finRange]

theorem Represents.find (h : Represents c b) : c.find dev bn = b.find dev bn := by
  rw [LinkedBcache.find, scan_path h.circle.next h.length.le, Bcache.find, h.buf]

theorem Represents.victim (h : Represents c b) : c.victim = b.victim := by
  have hprev := h.circle.prev
  rw [← List.map_reverse] at hprev
  rw [LinkedBcache.victim, scan_path hprev (by rw [List.length_reverse, h.length]), Bcache.victim, h.buf]

/-- A change of one buffer. -/
theorem Represents.set (h : Represents c b) (i : Fin NBUF) (x : Buf) : Represents (c.set i x) (b.set i x) :=
  ⟨by rw [LinkedBcache.set, Bcache.set, h.buf], h.circle, h.all⟩

/-- **`bget`** does what it does on the list. -/
theorem Represents.bget (h : Represents c b) (hget : c.bget dev bn = some (c', i)) :
    ∃ b', b.bget dev bn = some (b', i) ∧ Represents c' b' ∧ b'.order = b.order := by
  rw [LinkedBcache.bget, h.find, h.victim, h.buf] at hget
  rw [Bcache.bget]
  cases hf : b.find dev bn with
  | some j =>
    rw [hf] at hget
    cases hget
    exact ⟨_, rfl, h.set _ _, rfl⟩
  | none =>
    rw [hf] at hget
    cases hv : b.victim with
    | some j =>
      rw [hv] at hget
      cases hget
      exact ⟨_, rfl, h.set _ _, rfl⟩
    | none =>
      rw [hv] at hget
      cases hget

/-- **`brelse`** does what it does on the list. -/
theorem Represents.brelse (h : Represents c b) (i : Fin NBUF) : Represents (c.brelse i) (b.unref i) := by
  rw [LinkedBcache.brelse, Bcache.unref, h.buf]
  have hset := h.set i { b.buf i with refcnt := (b.buf i).refcnt - 1 }
  split_ifs with h0
  · obtain ⟨l₁, l₂, heq, hi⟩ := List.eq_append_cons_of_mem (h.all i)
    have herase : b.order.erase i = l₁ ++ l₂ := by
      rw [heq, List.erase_append_right _ hi, List.erase_cons_head]
    have hc := h.circle
    rw [heq, List.map_append, List.map_cons] at hc
    have hc' := hc.remove
    rw [← List.map_append, ← herase] at hc'
    refine ⟨hset.buf, ?_, fun j => ?_⟩
    · refine hc'.insert ?_
      simp only [List.mem_cons, reduceCtorEq, false_or, List.mem_map_of_injective (Option.some_injective _)]
      exact fun hm => h.nodup.not_mem_erase hm
    · by_cases hj : j = i
      · rw [hj]
        exact List.mem_cons_self
      · exact List.mem_cons_of_mem _ ((List.mem_erase_of_ne hj).2 (h.all j))
  · exact ⟨hset.buf, h.circle, h.all⟩

/-- The links that `binit` makes. -/
theorem circle_foldl (l : List (Fin NBUF)) : ∀ {s : Links (Option (Fin NBUF))} {m : List (Fin NBUF)},
    Circle s none (m.map some) → (l.reverse ++ m).Nodup →
    Circle (l.foldl (fun s b => s.insert none (some b)) s) none ((l.reverse ++ m).map some) := by
  induction l with
  | nil => exact fun hc _ => hc
  | cons b l ih =>
    intro s m hc hnd
    rw [List.reverse_cons, List.append_assoc, List.singleton_append] at hnd ⊢
    refine ih (hc.insert ?_) hnd
    have hb : b ∉ m := by
      have := (List.nodup_append.1 hnd).2.1
      exact (List.nodup_cons.1 this).1
    simpa using hb

theorem repr_binit : Represents binit Bcache.init where
  buf := rfl
  circle := by
    have hstart : Circle (⟨fun _ => none, fun _ => none⟩ : Links (Option (Fin NBUF))) none
        (List.map some []) := ⟨List.nodup_singleton _, rfl, rfl⟩
    have hc := circle_foldl (List.finRange NBUF) hstart (by simp [List.nodup_finRange])
    rw [List.append_nil] at hc
    exact hc
  all i := List.mem_reverse.2 (List.mem_finRange i)

end LinkedBcache

/-! ## The order of the releases -/

/-- The number of the last release of buffer `i` in a history, the last release first; 0 if there
is none. -/
def released : List (Fin NBUF) → Fin NBUF → ℕ
  | [], _ => 0
  | j :: history, i => if i = j then history.length + 1 else released history i

/-- The last release of `i` is after that of `j`, or neither has been released. -/
def After (history : List (Fin NBUF)) (i j : Fin NBUF) : Prop :=
  released history j < released history i ∨ released history i = 0 ∧ released history j = 0

theorem released_le (history : List (Fin NBUF)) (i : Fin NBUF) : released history i ≤ history.length := by
  induction history with
  | nil => exact le_rfl
  | cons j history ih =>
    rw [released, List.length_cons]
    split_ifs <;> omega

theorem After.cons {history : List (Fin NBUF)} {i j k : Fin NBUF} (h : After history i j) (hi : i ≠ k)
    (hj : j ≠ k) : After (k :: history) i j := by
  rwa [After, released, released, if_neg hi, if_neg hj]

/-- A release moves the buffer to the front. -/
theorem pairwise_release {history order : List (Fin NBUF)} (hnd : order.Nodup)
    (h : order.Pairwise (After history)) (i : Fin NBUF) :
    (i :: order.erase i).Pairwise (After (i :: history)) := by
  have hne : ∀ {j}, j ∈ order.erase i → j ≠ i := by
    rintro j hj rfl
    exact hnd.not_mem_erase hj
  refine List.pairwise_cons.2 ⟨fun j hj => .inl ?_, ?_⟩
  · have := released_le history j
    rw [released, released, if_pos rfl, if_neg (hne hj)]
    omega
  · exact (h.sublist List.erase_sublist).imp_of_mem fun hj hk hjk => hjk.cons (hne hj) (hne hk)

/-- The victim is the last of the list that can be recycled. -/
theorem victim_after {history : List (Fin NBUF)} {b : Bcache} {i j : Fin NBUF} (hall : ∀ i, i ∈ b.order)
    (h : b.order.Pairwise (After history)) (hi : b.victim = some i) (hji : j ≠ i)
    (hj : (b.buf j).refcnt = 0 ∧ (b.buf j).dirty = false) : After history j i := by
  obtain ⟨-, l₁, l₂, hl, hnot⟩ := List.find?_eq_some_iff_append.1 hi
  have horder : b.order = l₂.reverse ++ i :: l₁.reverse := by
    have := congrArg List.reverse hl
    simpa using this
  have hmem : j ∈ l₂.reverse ++ i :: l₁.reverse := horder ▸ hall j
  rw [horder] at h
  rcases List.mem_append.1 hmem with hm | hm
  · exact (List.pairwise_append.1 h).2.2 j hm i List.mem_cons_self
  · have hm₁ : j ∈ l₁ := List.mem_reverse.1 ((List.mem_cons.1 hm).resolve_left hji)
    have := hnot j hm₁
    simp [hj] at this

/-! ## Runs -/

/-- The cache, and the buffers whose count a `brelse` has dropped to 0, the last one first. -/
structure LruState where
  cache : LinkedBcache
  history : List (Fin NBUF)

/-- `flags` stands for what the holders of a buffer and the disk do to its flags. -/
inductive LruOp where
  | bget (dev : UInt32) (b : BlockNo)
  | brelse (i : Fin NBUF)
  | flags (i : Fin NBUF) (valid dirty : Bool)

def LruStep (s : LruState) : LruOp → LruState → Prop
  | .bget dev b, s' => ∃ i, s.cache.bget dev b = some (s'.cache, i) ∧ s'.history = s.history
  | .brelse i, s' => 0 < (s.cache.buf i).refcnt ∧ s' = ⟨s.cache.brelse i,
      if (s.cache.buf i).refcnt = 1 then i :: s.history else s.history⟩
  | .flags i valid dirty, s' =>
    s' = ⟨s.cache.set i { s.cache.buf i with valid, dirty }, s.history⟩

/-- The links go through a list in the order of the releases. -/
def LruInv (s : LruState) : Prop :=
  ∃ b : Bcache, s.cache.Represents b ∧ b.order.Pairwise (After s.history)

theorem LruInv.step {s s' : LruState} {op : LruOp} (h : LruInv s) (hs : LruStep s op s') :
    LruInv s' := by
  obtain ⟨b, hrepr, hafter⟩ := h
  cases op with
  | bget dev bn =>
    obtain ⟨i, hget, hhist⟩ := hs
    obtain ⟨b', -, hrepr', horder⟩ := hrepr.bget hget
    exact ⟨b', hrepr', by rw [horder, hhist]; exact hafter⟩
  | brelse i =>
    obtain ⟨hpos, rfl⟩ := hs
    refine ⟨b.unref i, hrepr.brelse i, ?_⟩
    rw [hrepr.buf] at hpos ⊢
    simp only [Bcache.unref]
    split_ifs with h0 h1 h1
    · exact pairwise_release hrepr.nodup hafter i
    · omega
    · omega
    · exact hafter
  | flags i valid dirty =>
    cases hs
    exact ⟨_, hrepr.set i _, hafter⟩

theorem LruInv.init : LruInv ⟨.binit, []⟩ := by
  refine ⟨Bcache.init, LinkedBcache.repr_binit, ?_⟩
  exact List.pairwise_of_forall fun i j => .inr ⟨rfl, rfl⟩

/-- **The buffer list is an LRU list.** -/
theorem lru_list {s : LruState} (hr : Reach (· = ⟨.binit, []⟩) LruStep s) :
    ∃ l : List (Fin NBUF), l.Nodup ∧ (∀ i, i ∈ l) ∧
      Path s.cache.links.next none (l.map some) none ∧
      (∀ x, s.cache.links.prev (s.cache.links.next x) = x ∧
        s.cache.links.next (s.cache.links.prev x) = x) ∧
      l.Pairwise (After s.history) ∧
      ∀ dev bn c i, s.cache.bget dev bn = some (c, i) →
        (∀ j, (s.cache.buf j).dev = dev → (s.cache.buf j).blockno ≠ bn) →
        (s.cache.buf i).refcnt = 0 ∧ (s.cache.buf i).dirty = false ∧
        ∀ j, j ≠ i → (s.cache.buf j).refcnt = 0 → (s.cache.buf j).dirty = false →
          After s.history j i := by
  have hinv : LruInv s := hr.inv (fun _ heq => heq ▸ LruInv.init) fun _ _ _ h hs => h.step hs
  obtain ⟨b, hrepr, hafter⟩ := hinv
  have hmem : ∀ x : Option (Fin NBUF), x ∈ none :: b.order.map some := by
    intro x
    cases x with
    | none => exact List.mem_cons_self
    | some i => exact List.mem_cons_of_mem _ (List.mem_map_of_mem (hrepr.all i))
  refine ⟨b.order, hrepr.nodup, hrepr.all, hrepr.circle.next,
    fun x => ⟨hrepr.circle.prev_next (hmem x), hrepr.circle.next_prev (hmem x)⟩, hafter, ?_⟩
  intro dev bn c i hget hnot
  have hnone : b.find dev bn = none := by
    refine List.find?_eq_none.2 fun j _ hj => ?_
    have := hnot j
    rw [hrepr.buf] at this
    simp only [decide_eq_true_eq] at hj
    exact this hj.1 hj.2
  obtain ⟨b', hget', -⟩ := hrepr.bget hget
  rw [Bcache.bget, hnone] at hget'
  cases hv : b.victim with
  | none =>
    rw [hv] at hget'
    cases hget'
  | some k =>
    rw [hv] at hget'
    cases hget'
    obtain ⟨h0, hclean⟩ := Bcache.victim_some hv
    rw [hrepr.buf]
    exact ⟨h0, hclean, fun j hji hj hd => victim_after hrepr.all hafter hv hji ⟨hj, hd⟩⟩

def lruNext (s : LruState) : LruOp → Option LruState
  | .bget dev b => (s.cache.bget dev b).map fun r => ⟨r.1, s.history⟩
  | .brelse i => if 0 < (s.cache.buf i).refcnt then some ⟨s.cache.brelse i,
      if (s.cache.buf i).refcnt = 1 then i :: s.history else s.history⟩ else none
  | .flags i valid dirty => some ⟨s.cache.set i { s.cache.buf i with valid, dirty }, s.history⟩

theorem lruStep_of_next (s : LruState) (op : LruOp) (s' : LruState) (h : lruNext s op = some s') :
    LruStep s op s' := by
  cases op with
  | bget dev b =>
    obtain ⟨⟨c, i⟩, hget, rfl⟩ := Option.map_eq_some_iff.1 h
    exact ⟨i, hget, rfl⟩
  | brelse i =>
    rw [lruNext] at h
    split_ifs at h with h0 <;> cases h <;> exact ⟨h0, by simp [*]⟩
  | flags i valid dirty => exact (Option.some.inj h).symm

/-- Buffers 0 and 1 are released, 1 first; all others are in use. -/
def recycleEnd : Reached (Reach (· = ⟨.binit, []⟩) LruStep) fun s => s.history = [0, 1] ∧
    (s.cache.buf 0).refcnt = 0 ∧ (s.cache.buf 0).dirty = false ∧
    (∀ j, (s.cache.buf j).dev = 1 → (s.cache.buf j).blockno ≠ 200) ∧
    (s.cache.bget 1 200).map Prod.snd = some 1 :=
  .ofRun lruNext lruStep_of_next rfl ([.bget 1 7, .bget 1 8, .brelse 1, .brelse 0] ++
    (List.range 28).map fun n => .bget 1 (UInt32.ofNat (100 + n))) (by decide +kernel)

/-- The next block gets the buffer released before the other one. -/
theorem lru_list_recycled : ∃ s c, Reach (· = ⟨.binit, []⟩) LruStep s ∧ s.history = [0, 1] ∧
    s.cache.bget 1 200 = some (c, 1) ∧ After s.history 0 1 := by
  obtain ⟨s, hs, hp⟩ := recycleEnd
  obtain ⟨hh, href, hd, hnot, hget⟩ := of_decide_eq_true hp
  obtain ⟨⟨c, i⟩, hget, rfl⟩ := Option.map_eq_some_iff.1 hget
  obtain ⟨l, -, -, -, -, -, hl⟩ := lru_list hs
  exact ⟨s, c, hs, hh, hget, (hl 1 200 c 1 hget hnot).2.2 0 (by decide) href hd⟩

end Xv6
