/-
  The memory of all address spaces (`vm.c`, `kalloc.c`).

  Address spaces are made by `setupkvm` and `copyuvm`, grow and shrink by
  `allocuvm` and `deallocuvm`, are written to by user programs, `loaduvm` and
  `copyout`, and are freed by `freevm`; the kernel takes other pages (stacks and
  pipes) from `kalloc`.  In every run of such calls each page has one use
  (`pages_one_use`), and no call reaches the pages of another address space
  (`spaces_isolated`).
-/
import Xv6.Lib.Reach
import Xv6.Vm.Copyout
import Xv6.Vm.Copyuvm

namespace Xv6

open Own Transition Fallible

namespace Kmem

/-- `p` is a table or a user page of `r`. -/
def Of (k : Kmem) (r p : UInt64) : Prop := ∃ d ≤ 4, ∃ x, node k r d x = some p

/-- `p` is free or a page of `r`. -/
def In (k : Kmem) (l : List UInt64) (r p : UInt64) : Prop := p ∈ l ∨ Of k r p

variable {B : Boot} {k k' : Kmem} {l l' : List UInt64} {r r' p sz : UInt64} {T A : UInt64 → Prop}

theorem Space.toIn (h : Space B k l r T) : Space B k l r (In k l r) := by
  have hT : T = In k l r := funext fun p => propext (h.mem_iff p)
  exact hT ▸ h

theorem Space.not_free (h : Space B k l r T) (hp : Of k r p) : p ∉ l := by
  obtain ⟨d, hd, x, hn⟩ := hp
  exact h.whole.held hd hn

/-- **A page table is left alone** by a call that works on free pages and on pages `A`. -/
theorem Space.frame (h : Space B k l r (In k l r)) (hpool : Pool B k' l')
    (hmem : ∀ q, q ∉ l → ¬ A q → k'.mem q = k.mem q) (hl : ∀ p ∈ l', p ∈ l ∨ A p)
    (hA : ∀ p, Of k r p → ¬ A p) :
    Space B k' l' r (In k' l' r) ∧ (∀ p, Of k' r p ↔ Of k r p) ∧ (∀ v, pte k' r v = pte k r v) ∧
      ∀ v, image k' r v = image k r v := by
  obtain ⟨hs, hnode, hpte, himg⟩ := h.relist hpool
    (fun q hq hql => hmem q hql (hA q (hq.resolve_left hql))) fun p hp => by
      by_cases hpl : p ∈ l
      · exact .inl hpl
      · exact .inr fun hin => hA p (hin.resolve_left hpl) ((hl p hp).resolve_left hpl)
  refine ⟨hs.toIn, fun p => ?_, hpte, himg⟩
  exact exists_congr fun d => and_congr_right fun hd => by simp only [hnode d hd]

theorem Spans.congr (h : Spans k r sz) (himg : ∀ v, image k' r' v = image k r v) :
    Spans k' r' sz := fun v => by rw [← image_isSome, himg, image_isSome, h v]

end Kmem

open Kmem

/-! ## The machine -/

structure Vms where
  k : Kmem
  /-- the page table and the size of each address space -/
  space : ℕ → Option (UInt64 × UInt64)
  /-- the pages that the rest of the kernel has from `kalloc` -/
  held : List UInt64

namespace Vms

/-- Address space `i` changes. -/
def set (s : Vms) (i : ℕ) (k : Kmem) (o : Option (UInt64 × UInt64)) : Vms :=
  { s with k := k, space := Function.update s.space i o }

/-- A call that returns, labelled with the address space it works on, if any.  Sizes stay at least
    `PGSIZE`: the first page is never mapped. -/
inductive Step (B : Boot) (s : Vms) : Option ℕ → Vms → Prop
  | setupkvm {i : ℕ} {r : UInt64} {k : Kmem} : s.space i = none → s.k.setupkvm B = .ok (r, k) →
      Step B s (some i) (s.set i k (some (r, PGSIZE)))
  | allocuvm {i : ℕ} {r sz newsz sz' : UInt64} {k : Kmem} : s.space i = some (r, sz) →
      sz ≤ newsz → newsz < KERNBASE → s.k.allocuvm B r sz newsz = .ok (sz', k) →
      Step B s (some i) (s.set i k (some (r, sz')))
  | deallocuvm {i : ℕ} {r sz newsz sz' : UInt64} {k : Kmem} : s.space i = some (r, sz) →
      PGSIZE ≤ newsz → newsz < sz → s.k.deallocuvm B r sz newsz = .ok (sz', k) →
      Step B s (some i) (s.set i k (some (r, sz')))
  | clearpteu {i : ℕ} {r sz uva : UInt64} {k : Kmem} : s.space i = some (r, sz) →
      uva.toNat < 2 ^ 47 → (userPage s.k r (uva.toNat / 4096)).isSome →
      s.k.clearpteu r uva = .ok k → Step B s (some i) (s.set i k (some (r, sz)))
  /-- user program, `loaduvm` or `copyout` -/
  | store {i v : ℕ} {r sz p : UInt64} (pg : Page) : s.space i = some (r, sz) →
      userPage s.k r v = some p → Step B s (some i) (s.set i (s.k.setPage p pg) (some (r, sz)))
  | copyuvm {i j : ℕ} {r sz d : UInt64} {k : Kmem} : s.space i = some (r, sz) →
      s.space j = none → s.k.copyuvm B r sz.toUInt32 = .ok (d, k) →
      Step B s (some j) (s.set j k (some (d, sz)))
  | freevm {i : ℕ} {r sz : UInt64} {k : Kmem} : s.space i = some (r, sz) →
      s.k.freevm B r = .ok k → Step B s (some i) (s.set i k none)
  | kalloc {p : UInt64} {k : Kmem} : s.k.kalloc = .ok (p, k) →
      Step B s none { s with k := k, held := p :: s.held }
  | fill {p : UInt64} (pg : Page) : p ∈ s.held → Step B s none { s with k := s.k.setPage p pg }
  | kfree {p : UInt64} {k : Kmem} : p ∈ s.held → s.k.kfree B p = .ok k →
      Step B s none { s with k := k, held := s.held.filter (· ≠ p) }

/-! ## The invariant -/

/-- The pages of an address space, or of the rest of the kernel. -/
def Has (s : Vms) : Option ℕ → UInt64 → Prop
  | some i, p => ∃ r sz, s.space i = some (r, sz) ∧ Of s.k r p
  | none, p => p ∈ s.held

/-- The pages `S` are the free ones `l` and those in use, each in one. -/
structure Inv (B : Boot) (S : UInt64 → Prop) (s : Vms) (l : List UInt64) : Prop where
  pool : Pool B s.k l
  space : ∀ {i r sz}, s.space i = some (r, sz) →
    Space B s.k l r (In s.k l r) ∧ Spans s.k r sz ∧ PGSIZE ≤ sz
  valid : ∀ p ∈ s.held, Valid B p
  used : ∀ {x p}, s.Has x p → p ∉ l
  apart : ∀ {x y p}, s.Has x p → s.Has y p → x = y
  all : ∀ p, S p ↔ p ∈ l ∨ ∃ x, s.Has x p

/-- A step on `x` leaves the other address spaces and, unless `x` is the kernel, its pages. -/
structure Isolated (s : Vms) (x : Option ℕ) (s' : Vms) : Prop where
  space : ∀ {j r sz}, x ≠ some j → s.space j = some (r, sz) → s'.space j = some (r, sz) ∧
    ∀ v, pte s'.k r v = pte s.k r v ∧ image s'.k r v = image s.k r v
  held : x ≠ none → ∀ p ∈ s.held, s'.k.mem p = s.k.mem p

namespace Inv
variable {B : Boot} {S : UInt64 → Prop} {s s' : Vms} {l l' : List UInt64} {x : Option ℕ} {i : ℕ}
  {k : Kmem} {o : Option (UInt64 × UInt64)} {r sz sz' : UInt64}

/-- **A call for `x`** works on free pages and on those of `x`. -/
theorem change (h : Inv B S s l) (hpool : Pool B s'.k l')
    (hspace : ∀ j, x ≠ some j → s'.space j = s.space j) (hheld : x ≠ none → s'.held = s.held)
    (hmem : ∀ q, q ∉ l → ¬ s.Has x q → s'.k.mem q = s.k.mem q)
    (hnew : ∀ {i r sz}, x = some i → s'.space i = some (r, sz) →
      Space B s'.k l' r (In s'.k l' r) ∧ Spans s'.k r sz ∧ PGSIZE ≤ sz)
    (hvalid : x = none → ∀ p ∈ s'.held, Valid B p) (hused : ∀ p, s'.Has x p → p ∉ l')
    (hall : ∀ p, p ∈ l' ∨ s'.Has x p ↔ p ∈ l ∨ s.Has x p) : Inv B S s' l' ∧ Isolated s x s' := by
  have hfr : ∀ {j r sz}, x ≠ some j → s.space j = some (r, sz) → _ := fun {j r sz} hj hs =>
    (h.space hs).1.frame (A := s.Has x) hpool hmem (fun p hp => (hall p).1 (.inl hp))
      fun p hp hx => hj (h.apart hx (y := some j) ⟨r, sz, hs, hp⟩)
  have hold : ∀ {y}, x ≠ y → ∀ p, s'.Has y p ↔ s.Has y p := by
    intro y hy p
    cases y with
    | none => rw [Has, Has, hheld hy]
    | some j =>
      simp only [Has, hspace j hy]
      exact exists_congr fun r => exists_congr fun sz => and_congr_right fun hs =>
        (hfr hy hs).2.1 p
  have hnot : ∀ {y p}, x ≠ y → s'.Has y p → ¬ (p ∈ l' ∨ s'.Has x p) := by
    intro y p hy hp
    rw [hold hy] at hp
    rw [hall]
    exact not_or.2 ⟨h.used hp, fun hx => hy (h.apart hx hp)⟩
  refine ⟨⟨hpool, fun {j r sz} hj => ?_, ?_, fun {y p} hp => ?_, fun {y z p} hy hz => ?_,
    fun p => ?_⟩, fun {j r sz} hj hs => ?_, fun hx p hp => ?_⟩
  · by_cases hx : x = some j
    · exact hnew hx hj
    · rw [hspace j hx] at hj
      obtain ⟨hs, -, -, himg⟩ := hfr hx hj
      exact ⟨hs, (h.space hj).2.1.congr himg, (h.space hj).2.2⟩
  · by_cases hx : x = none
    · exact hvalid hx
    · rw [hheld hx]
      exact h.valid
  · by_cases hx : x = y
    · exact hused p (hx ▸ hp)
    · exact fun hl => hnot hx hp (.inl hl)
  · by_cases hxy : x = y <;> by_cases hxz : x = z
    · exact hxy.symm.trans hxz
    · exact absurd (.inr (hxy ▸ hy)) (hnot hxz hz)
    · exact absurd (.inr (hxz ▸ hz)) (hnot hxy hy)
    · exact h.apart ((hold hxy p).1 hy) ((hold hxz p).1 hz)
  · -- the pages of the call are the same before and after it
    rw [h.all p]
    grind
  · obtain ⟨-, -, hpte, himg⟩ := hfr hj hs
    exact ⟨(hspace j hj).trans hs, fun v => ⟨hpte v, himg v⟩⟩
  · have hp : s.Has none p := hp
    exact hmem p (h.used hp) fun hx' => hx (h.apart hx' hp)

/-- A call on one address space. -/
theorem set (h : Inv B S s l) (hpool : Pool B k l')
    (hmem : ∀ q, q ∉ l → ¬ s.Has (some i) q → k.mem q = s.k.mem q)
    (hnew : ∀ {r sz}, o = some (r, sz) → Space B k l' r (In k l' r) ∧ Spans k r sz ∧ PGSIZE ≤ sz)
    (hall : ∀ p, p ∈ l' ∨ (∃ r sz, o = some (r, sz) ∧ Of k r p) ↔ p ∈ l ∨ s.Has (some i) p) :
    Inv B S (s.set i k o) l' ∧ Isolated s (some i) (s.set i k o) := by
  have hself : (s.set i k o).space i = o := Function.update_self ..
  refine h.change hpool (fun j hj => Function.update_of_ne ?_ ..) (fun _ => rfl) hmem ?_
    (by rintro ⟨⟩) ?_ fun p => ?_
  · rintro rfl
    exact hj rfl
  · rintro _ r sz ⟨⟩ ho
    exact hnew (hself.symm.trans ho)
  · rintro p ⟨r, sz, ho, hp⟩
    exact (hnew (hself.symm.trans ho)).1.not_free hp
  · rw [Has, hself]
    exact hall p

/-- A call on an address space that keeps its free pages and its own. -/
theorem own (h : Inv B S s l) (hi : s.space i = some (r, sz))
    (hs : Space B k l' r (In s.k l r)) (hk : Keeps (In s.k l r) r s.k k) (hm : Spans k r sz')
    (hsz : PGSIZE ≤ sz') : Inv B S (s.set i k (some (r, sz'))) l' ∧
      Isolated s (some i) (s.set i k (some (r, sz'))) := by
  have hold : ∀ p, s.Has (some i) p ↔ Of s.k r p := fun p => by simp [Has, hi]
  refine h.set hs.tree.pool (fun q hq hq' => hk.mem q ?_) ?_ fun p => ?_
  · rw [In, ← hold]
    exact not_or.2 ⟨hq, hq'⟩
  · rintro r₁ sz₁ ⟨⟩
    exact ⟨hs.toIn, hm, hsz⟩
  · have h1 := hs.mem_iff p
    rw [In] at h1
    rw [hold, h1]
    simp [Of]

/-- A new address space is made of free pages. -/
theorem new (h : Inv B S s l) (hi : s.space i = none) (hs : Space B k l' r (· ∈ l))
    (hmem : ∀ q, q ∉ l → k.mem q = s.k.mem q) (hm : Spans k r sz) (hsz : PGSIZE ≤ sz) :
    Inv B S (s.set i k (some (r, sz))) l' ∧ Isolated s (some i) (s.set i k (some (r, sz))) := by
  refine h.set hs.tree.pool (fun q hq _ => hmem q hq) ?_ fun p => ?_
  · rintro r₁ sz₁ ⟨⟩
    exact ⟨hs.toIn, hm, hsz⟩
  · simpa [Has, hi, Of] using (hs.mem_iff p).symm

/-- A call of the kernel on its own pages. -/
theorem kernel (h : Inv B S s l) {held : List UInt64} (hpool : Pool B k l')
    (hmem : ∀ q, q ∉ l → q ∉ s.held → k.mem q = s.k.mem q)
    (hvalid : ∀ p ∈ held, Valid B p ∧ p ∉ l') (hall : ∀ p, p ∈ l' ∨ p ∈ held ↔ p ∈ l ∨ p ∈ s.held) :
    Inv B S { s with k := k, held := held } l' ∧ Isolated s none { s with k := k, held := held } :=
  h.change hpool (fun _ _ => rfl) (fun hx => absurd rfl hx) hmem (by rintro _ _ _ ⟨⟩)
    (fun _ p hp => (hvalid p hp).1) (fun p hp => (hvalid p hp).2) hall

theorem step (h : Inv B S s l) (hs : Step B s x s') :
    ∃ l', Inv B S s' l' ∧ Isolated s x s' := by
  cases hs with
  | setupkvm hi hok =>
    have hspec := h.pool.newSpace
    rw [hok] at hspec
    obtain ⟨-, -, l', -, hl, hs, hnone, hmem, -⟩ := hspec
    refine ⟨l', h.new hi hs (fun q hq => hmem q ?_) (fun v => ?_) UInt64.le_rfl⟩
    · rintro rfl
      exact hq (hl ▸ List.mem_cons_self ..)
    · rw [hnone, show npages PGSIZE = 1 from rfl]
      simp
      omega
  | @allocuvm i r sz newsz sz' k hi hle hlt hok =>
    obtain ⟨hs, hm, hsz⟩ := h.space hi
    have hspec := hs.allocuvm sz newsz hle hlt (hm.room _)
    rw [hok] at hspec
    obtain ⟨-, -, l', -, rfl, hs', hk, -, himg⟩ := hspec
    refine ⟨l', h.own hi hs' hk (fun v => ?_) (UInt64.le_trans hsz hle)⟩
    have h1 : 1 ≤ npages sz := npages_mono hsz
    have h2 := npages_mono hle
    rw [← image_isSome, himg]
    split_ifs with hv
    · exact iff_of_true rfl (by omega)
    · rw [image_isSome, hm v]
      omega
  | @deallocuvm i r sz newsz sz' k hi hnew hlt hok =>
    obtain ⟨hs, hm, hsz⟩ := h.space hi
    have hmax : sz.toNat ≤ 2 ^ 47 := by
      have := hm.npages_le hs
      rw [npages] at this
      omega
    obtain ⟨k', l', hok', hs', hk, -, himg, -⟩ := hs.deallocuvm sz newsz hlt hmax
    cases hok'.symm.trans hok
    refine ⟨l', h.own hi hs' hk (fun v => ?_) hnew⟩
    have h2 := npages_mono (UInt64.le_of_lt hlt)
    rw [← image_isSome, himg]
    split_ifs with hv
    · exact iff_of_false (by simp) (by omega)
    · rw [image_isSome, hm v]
      omega
  | clearpteu hi hva hmap hok =>
    obtain ⟨hs, hm, hsz⟩ := h.space hi
    obtain ⟨t, ht⟩ := table_of_mapped hmap
    obtain ⟨k', hok', hs', hk, himg⟩ := hs.clearpteu rfl hva ht
    cases hok'.symm.trans hok
    refine ⟨l, h.own hi hs' hk (fun v => ?_) hsz⟩
    rw [← hm v, ← image_isSome, ← image_isSome, himg]
    split_ifs with hv
    · rw [hv, Option.isSome_map]
    · rfl
  | @store i v r sz p pg hi hp =>
    obtain ⟨hs, hm, hsz⟩ := h.space hi
    obtain ⟨hs', hk, -, hpte, -⟩ := hs.write hp pg
    exact ⟨l, h.own hi hs' hk (fun v => by rw [userPage_congr (hpte v), hm v]) hsz⟩
  | copyuvm hi hj hok =>
    obtain ⟨hs, hm, hsz⟩ := h.space hi
    have hspec := hs.copyuvm hm (by
      have := hm.npages_le hs
      rw [npages] at this
      omega)
    rw [hok] at hspec
    obtain ⟨-, -, l', -, -, -, hs', hmem, himg, -⟩ := hspec
    exact ⟨l', h.new hj hs' hmem (hm.congr himg) hsz⟩
  | freevm hi hok =>
    obtain ⟨k', l', hok', hpool, hl, hmem⟩ := (h.space hi).1.freevm
    cases hok'.symm.trans hok
    refine ⟨l', h.set hpool (fun q hq hq' => hmem q ?_) (by rintro _ _ ⟨⟩) fun p => ?_⟩
    · simpa [In, Has, hi] using And.intro hq (by simpa [Has, hi] using hq')
    · simp [hl, In, Has, hi]
  | @kalloc p k hok =>
    rcases h.pool.kalloc with ⟨-, he⟩ | ⟨p', l', k', rfl, hok', hmem, hpool⟩
    · cases he.symm.trans hok
    cases hok'.symm.trans hok
    refine ⟨l', h.kernel hpool (fun q _ _ => congrFun hmem q) (fun q hq => ?_) fun q => ?_⟩
    · rcases List.mem_cons.1 hq with rfl | hq
      · exact ⟨h.pool.valid q (by simp), (List.nodup_cons.1 h.pool.nodup).1⟩
      · exact ⟨h.valid q hq, fun hl => h.used (x := none) hq (List.mem_cons_of_mem _ hl)⟩
    · grind
  | @fill p pg hp =>
    have hne : ∀ {q}, q ∉ s.held → q ≠ p := by
      rintro q hq rfl
      exact hq hp
    have hpool : Pool B (s.k.setPage p pg) l := h.pool.congr rfl fun q hq =>
      mem_setPage_of_ne _ _ (hne fun hq' => h.used (x := none) hq' hq)
    exact ⟨l, h.kernel hpool (fun q _ hq => mem_setPage_of_ne _ _ (hne hq))
      (fun q hq => ⟨h.valid q hq, h.used (x := none) hq⟩) fun _ => Iff.rfl⟩
  | @kfree p k hp hok =>
    obtain ⟨k', hok', hpool, hmem⟩ := h.pool.kfree (h.valid p hp) (h.used (x := none) hp)
    cases hok'.symm.trans hok
    refine ⟨p :: l, h.kernel hpool (fun q _ hq => hmem q ?_) (fun q hq => ?_) fun q => ?_⟩
    · rintro rfl
      exact hq hp
    · obtain ⟨hq, hqp⟩ : q ∈ s.held ∧ q ≠ p := by simpa using hq
      exact ⟨h.valid q hq, by simpa [hqp] using h.used (x := none) hq⟩
    · grind

theorem reach {k₀ : Kmem} (hpool : Pool B k₀ l)
    (hr : Reach (· = ⟨k₀, fun _ => none, []⟩) (Step B) s) : ∃ l', Inv B (· ∈ l) s l' := by
  induction hr with
  | init hs =>
    subst hs
    have hno : ∀ x p, ¬ Has ⟨k₀, fun _ => none, []⟩ x p := by
      rintro (_ | i) p <;> simp [Has]
    exact ⟨l, hpool, by rintro _ _ _ ⟨⟩, by simp, fun hp => absurd hp (hno _ _),
      fun hp => absurd hp (hno _ _), by simp [hno]⟩
  | step _ hs ih =>
    obtain ⟨_, h⟩ := ih
    obtain ⟨l', h', -⟩ := h.step hs
    exact ⟨l', h'⟩

end Inv

section
variable {B : Boot} {k₀ : Kmem} {s s' : Vms} {l : List UInt64}

/-- An address space with two pages of memory and its copy. -/
theorem smallBoot_two : ∃ k₀ l s r r', Pool smallBoot k₀ l ∧
    Reach (· = ⟨k₀, fun _ => none, []⟩) (Step smallBoot) s ∧ s.space 0 = some (r, 0x3000) ∧
    s.space 1 = some (r', 0x3000) ∧ image s.k r 2 = some (7, fun _ => 0) ∧
    image s.k r' 2 = some (7, fun _ => 0) := by
  obtain ⟨k₀, l₀, k₁, k₂, l, r, T, hpool, hset, hok, hs, hm, hlen, himg⟩ := smallBoot_run
  have hcost : 1 + 4 * (npages 0x3000 - 1) = 9 := by decide
  obtain ⟨⟨r', k₃⟩, -, hcopy, -, -, -, -, -, -, -, himg', -⟩ :=
    (hs.copyuvm hm (by decide)).run (by omega)
  let s₀ : Vms := ⟨k₀, fun _ => none, []⟩
  let s₁ := s₀.set 0 k₁ (some (r, 0x1000))
  let s₂ := s₁.set 0 k₂ (some (r, 0x3000))
  have hr : Reach (· = s₀) (Step smallBoot) s₂ :=
    .step (.step (.init rfl) (.setupkvm rfl hset)) (.allocuvm rfl (by decide) (by decide) hok)
  have hs : Step smallBoot s₂ (some 1) (s₂.set 1 k₃ (some (r', 0x3000))) :=
    .copyuvm (i := 0) rfl rfl hcopy
  obtain ⟨_, h⟩ := Inv.reach hpool hr
  obtain ⟨-, -, hi⟩ := h.step hs
  obtain ⟨h0, hkeep⟩ := hi.space (j := 0) (by decide) rfl
  exact ⟨k₀, l₀, _, r, r', hpool, .step hr hs, h0, rfl, (hkeep 2).2.trans (himg 2),
    (himg' 2).trans (himg 2)⟩

/-- **Each page has one use.**  In every state that the calls lead to, the pages that were free at
    first are those of the free list, of the address spaces and of the kernel.  No two of these have
    a page in common, the free list has none twice, and a page stands at one place of its page
    table. -/
theorem pages_one_use (hpool : Pool B k₀ l)
    (hr : Reach (· = ⟨k₀, fun _ => none, []⟩) (Step B) s) :
    ∃ l', Pool B s.k l' ∧ (∀ p, p ∈ l ↔ p ∈ l' ∨ ∃ x, s.Has x p) ∧
      (∀ p x, s.Has x p → p ∉ l') ∧ (∀ p x y, s.Has x p → s.Has y p → x = y) ∧
      ∀ i r sz, s.space i = some (r, sz) → Radix.Inj format s.k.word r 4 := by
  obtain ⟨l', h⟩ := Inv.reach hpool hr
  exact ⟨l', h.pool, h.all, fun p x => h.used, fun p x y => h.apart,
    fun i r sz hi => (h.space hi).1.whole.inj⟩

theorem pages_one_use_two : ∃ r r' p p' l, ∃ s : Vms, s.space 0 = some (r, 0x3000) ∧
    s.space 1 = some (r', 0x3000) ∧ userPage s.k r 2 = some p ∧ userPage s.k r' 2 = some p' ∧
    Pool smallBoot s.k l ∧ p ∉ l ∧ p ≠ p' := by
  obtain ⟨k₀, l, s, r, r', hpool, hr, h0, h1, himg, himg'⟩ := smallBoot_two
  obtain ⟨l', hpool', -, hused, hapart, -⟩ := pages_one_use hpool hr
  obtain ⟨p, hp, -⟩ := Option.map_eq_some_iff.1 himg
  obtain ⟨p', hp', -⟩ := Option.map_eq_some_iff.1 himg'
  have hof : s.Has (some 0) p := ⟨r, _, h0, 4, le_rfl, 2, (node_four 2).trans hp⟩
  have hof' : s.Has (some 1) p' := ⟨r', _, h1, 4, le_rfl, 2, (node_four 2).trans hp'⟩
  refine ⟨r, r', p, p', l', s, h0, h1, hp, hp', hpool', hused p _ hof, ?_⟩
  rintro rfl
  exact absurd (hapart p _ _ hof hof') (by decide)

/-- **Address spaces are isolated.**  In every state that the calls lead to, a call on one address
    space, or of the kernel on a page of its own, leaves the mapping and the contents of all other
    address spaces; and calls on address spaces leave the kernel's pages. -/
theorem spaces_isolated (hpool : Pool B k₀ l)
    (hr : Reach (· = ⟨k₀, fun _ => none, []⟩) (Step B) s) {x : Option ℕ} (hs : Step B s x s') :
    Isolated s x s' := by
  obtain ⟨_, h⟩ := Inv.reach hpool hr
  obtain ⟨-, -, hi⟩ := h.step hs
  exact hi

/-- A store to one of them. -/
theorem spaces_isolated_two : ∃ s s' r r' p, s.space 0 = some (r, 0x3000) ∧
    s.space 1 = some (r', 0x3000) ∧ userPage s.k r 2 = some p ∧ Step smallBoot s (some 0) s' ∧
    s'.k.mem p = (fun _ => 1) ∧ image s'.k r' 2 = some (7, fun _ => 0) := by
  obtain ⟨k₀, l, s, r, r', hpool, hr, h0, h1, himg, himg'⟩ := smallBoot_two
  obtain ⟨p, hp, -⟩ := Option.map_eq_some_iff.1 himg
  have hs := Step.store (B := smallBoot) (fun _ => 1) h0 hp
  have hi := spaces_isolated hpool hr hs
  exact ⟨s, _, r, r', p, h0, h1, hp, hs, Function.update_self ..,
    ((hi.space (by decide) h1).2 2).2.trans himg'⟩

end

end Vms

end Xv6
