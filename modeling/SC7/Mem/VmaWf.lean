-- SUMMARY: The VMA lists of all processes stay circular, sorted and disjoint along every run, and a copy repeats its source.
import SC7.Base.Run
import SC7.Mem.VmaList

/-!
# Well-formed VMA lists

Any number of processes run the list routines in any order. Each list is owned by one process; what
a routine does to its own list is described in the sequence of areas, and it reaches no other list.
The one way to spoil a list is a call of `alloc_vma` whose rounded end passes `2 ^ 64`.
-/

namespace SC7

open Function (update update_of_ne update_self)
open Links (AgreeOff)

namespace VmaMem

variable {ops : PageOps} {s s' : VmaMem} {fuel pid np h e : Nat} {l l' : List Nat}

/-! ## New lists -/

/-- A page from the allocator that is linked to itself is a list with no area. -/
theorem born {f : Nat → Nat} {s₁ t : VmaMem} (ha : s.allocPage = some (e, s₁))
    (hused : t.used = s₁.used) (hhead : t.head = f) (hnode : ∀ x, x ≠ e → t.node x = s.node x)
    (hagree : AgreeOff [e] s.links t.links) (hnext : t.links.next e = e)
    (hprev : t.links.prev e = e) :
    t.Owns e [] [] ∧ Moved { s with head := f } t [] [e] := by
  obtain ⟨-, hfree, ps, rfl⟩ := allocPage_eq_some ha
  have hown : ∀ x ∈ [e], t.used x = true := by
    intro x hx
    rw [hused, List.mem_singleton.mp hx]
    exact update_self ..
  refine ⟨⟨Links.Circular.nil hnext hprev, List.nodup_singleton e, hown⟩, ⟨?_, ?_, ?_, hown, hhead⟩⟩
  · intro x hx _
    have hne : x ≠ e := by
      rintro rfl
      rw [show s.used x = true from hx] at hfree
      cases hfree
    obtain ⟨hn, hp⟩ := hagree x (by simpa using hne)
    refine ⟨?_, hnode x hne, hn, hp⟩
    rw [hused]
    exact (update_of_ne hne true s.used).trans hx
  · intro x hx
    by_cases hxe : x = e
    · exact .inl (by simp [hxe])
    · rw [hused] at hx
      exact .inr ⟨(update_of_ne hxe true s.used).symm.trans hx, by simp⟩
  · intro x hx
    rw [List.mem_singleton.mp hx]
    exact .inr hfree

/-- The segment of a shared VMA still has its pages. -/
def OwnsPages (s : VmaMem) (x : Nat) : Prop :=
  (s.node x).type = .SHARE → (s.node x).shmKernel ≠ NULL → (s.shm (s.node x).shmKernel).shmPages ≠ none

theorem Owns.append (ho : s.Owns h l [e]) :
    (s.appendVma h e).Owns h (l ++ [e]) [] ∧
      Moved s (s.appendVma h e) (owned h l [e]) (owned h (l ++ [e]) []) := by
  have hagree : AgreeOff (owned h l [e]) s.links ((s.links.setPrev e NULL).setNext e NULL) :=
    ((AgreeOff.refl _ _).setPrev (by simp) _).setNext (by simp) _
  have hcirc : ((s.links.setPrev e NULL).setNext e NULL).Circular h l := by
    have hne : ∀ x ∈ h :: l, x ≠ e := fun x hx heq => ho.loose_not_mem (heq ▸ hx)
    apply ho.circular.congr
    · intro x hx
      rw [Links.setNext_next, if_neg (hne x hx), Links.setPrev_next]
    · intro x hx
      rw [Links.setNext_prev, Links.setPrev_prev, if_neg (hne x hx)]
  obtain ⟨ho₁, hm₁⟩ := ho.relink hcirc hagree (List.Perm.refl _)
  have ho₁' : (s.setLinks ((s.links.setPrev e NULL).setNext e NULL)).Owns h (l ++ []) [e] := by
    simpa using ho₁
  obtain ⟨ho₂, hm₂⟩ := ho₁'.insertBefore
  rw [List.append_nil] at hm₂
  exact ⟨ho₂, hm₁.trans hm₂⟩

/-- One round of `vma_copy`: the area is repeated at the end of the new list. -/
theorem Owns.copy_append {s₁ t : VmaMem} {v : Nat} (ho : s.Owns h l [])
    (ha : s.allocPage = some (e, s₁)) (hlinks : t.links = (s₁.copyVma e v).links)
    (hused : t.used = (s₁.copyVma e v).used) (hnode : t.node = (s₁.copyVma e v).node)
    (hhead : t.head = (s₁.copyVma e v).head) :
    (t.appendVma h e).Owns h (l ++ [e]) [] ∧
      Moved s (t.appendVma h e) (owned h l []) (owned h (l ++ [e]) []) ∧
      (t.appendVma h e).node e = s.node v ∧
      ∀ x, s.used x = true → (t.appendVma h e).node x = s.node x := by
  obtain ⟨-, hfree, -⟩ := allocPage_eq_some ha
  obtain ⟨ho₁, hm₁, -, hnode₁, -, -⟩ := ho.alloc ha
  obtain ⟨ho₂, hm₂⟩ := ho₁.copy v
  obtain ⟨ho₃, hm₃⟩ := ho₂.congr hlinks hused hnode hhead
  obtain ⟨ho₄, hm₄⟩ := ho₃.append
  have hdata : (t.appendVma h e).node = update s.node e (s.node v) := by
    simp only [appendVma, setLinks, hnode, copyVma, setNode, hnode₁]
  refine ⟨ho₄, ((hm₁.trans hm₂).trans hm₃).trans hm₄, ?_, ?_⟩
  · rw [hdata, update_self]
  · intro x hx
    have hne : x ≠ e := by
      rintro rfl
      rw [hx] at hfree
      cases hfree
    rw [hdata, update_of_ne hne]

/-- The loop of `vma_copy` repeats the areas of the rest `m₂` of the source. -/
theorem vmaCopyLoop_spec {head n : Nat} {m₁ m₂ : List Nat} (ho : s.Owns h l [])
    (hsrc : s.links.Circular head (m₁ ++ m₂))
    (hforeign : ∀ x ∈ head :: (m₁ ++ m₂), s.used x = true ∧ x ∉ owned h l [])
    (hpages : ∀ x ∈ m₂, s.OwnsPages x) (hr : vmaCopyLoop head h n (m₂.headD head) s = some s') :
    ∃ l', s'.Owns h (l ++ l') [] ∧ Moved s s' (owned h l []) (owned h (l ++ l') []) ∧
      l'.map s'.node = m₂.map s.node ∧ ∀ x ∈ l, s'.node x = s.node x := by
  induction n generalizing s l m₁ m₂ with
  | zero =>
    unfold vmaCopyLoop at hr
    split at hr
    · rename_i hv
      cases hr
      cases m₂ with
      | nil => exact ⟨[], by simpa using ho, by simpa using ho.moved_refl, rfl, fun _ _ => rfl⟩
      | cons v m₂ =>
        rw [List.headD_cons] at hv
        exact absurd (by simp [hv]) hsrc.anchor_not_mem
    · cases hr
  | succ n ih =>
    unfold vmaCopyLoop at hr
    cases m₂ with
    | nil =>
      rw [List.headD_nil, if_pos rfl] at hr
      cases hr
      exact ⟨[], by simpa using ho, by simpa using ho.moved_refl, rfl, fun _ _ => rfl⟩
    | cons v m₂ =>
      have hvh : v ≠ head := by
        rintro rfl
        exact hsrc.anchor_not_mem (by simp)
      rw [List.headD_cons, if_neg hvh] at hr
      obtain ⟨⟨e, s₁⟩, ha, hr⟩ := Option.bind_eq_some_iff.mp hr
      obtain ⟨-, -, ps, hs₁⟩ := allocPage_eq_some ha
      -- whatever the round did to the segments, it goes on with the next area
      have hround : ∀ t : VmaMem, t.links = (s₁.copyVma e v).links →
          t.used = (s₁.copyVma e v).used → t.node = (s₁.copyVma e v).node →
          t.head = (s₁.copyVma e v).head →
          (∀ k, (t.shm k).shmPages = (s.shm k).shmPages) →
          vmaCopyLoop head h n ((t.appendVma h e).links.next v) (t.appendVma h e) = some s' →
          ∃ l', s'.Owns h (l ++ l') [] ∧ Moved s s' (owned h l []) (owned h (l ++ l') []) ∧
            l'.map s'.node = (v :: m₂).map s.node ∧ ∀ x ∈ l, s'.node x = s.node x := by
        intro t hlinks hused hnode hhead hshm hr
        obtain ⟨ho', hm', hdata, hkeep⟩ := ho.copy_append ha hlinks hused hnode hhead
        have hframe : ∀ x ∈ head :: (m₁ ++ v :: m₂), _ := fun x hx =>
          hm'.frame x (hforeign x hx).1 (hforeign x hx).2
        rw [(hframe v (by simp)).2.2.1, hsrc.next_mem] at hr
        have hsrc' : (t.appendVma h e).links.Circular head ((m₁ ++ [v]) ++ m₂) := by
          rw [List.append_assoc, List.singleton_append]
          exact hsrc.congr (fun x hx => (hframe x hx).2.2.1) (fun x hx => (hframe x hx).2.2.2)
        have hforeign' : ∀ x ∈ head :: ((m₁ ++ [v]) ++ m₂),
            (t.appendVma h e).used x = true ∧ x ∉ owned h (l ++ [e]) [] := by
          intro x hx
          rw [List.append_assoc, List.singleton_append] at hx
          refine ⟨(hframe x hx).1, ?_⟩
          intro hmem
          rcases hm'.fresh x hmem with hO | hO
          · exact (hforeign x hx).2 hO
          · rw [(hforeign x hx).1] at hO
            cases hO
        have hpages' : ∀ x ∈ m₂, (t.appendVma h e).OwnsPages x := by
          intro x hx
          have hx' : x ∈ head :: (m₁ ++ v :: m₂) := by simp [hx]
          unfold OwnsPages
          rw [hkeep x (hforeign x hx').1]
          intro hty hk
          have hp := hpages x (by simp [hx]) hty hk
          have hshm' : (t.appendVma h e).shm = t.shm := rfl
          rw [hshm', hshm]
          exact hp
        obtain ⟨l', ho'', hm'', hdata', hkeep'⟩ := ih ho' hsrc' hforeign' hpages' hr
        refine ⟨e :: l', by simpa using ho'', hm'.trans (by simpa using hm''), ?_, ?_⟩
        · rw [List.map_cons, List.map_cons, hkeep' e (by simp), hdata, hdata']
          refine congrArg _ (List.map_congr_left fun x hx => hkeep x (hforeign x (by simp [hx])).1)
        · intro x hx
          rw [hkeep' x (by simp [hx])]
          exact hkeep x (ho.used x (by simp [hx]))
      have hev : (s₁.copyVma e v).node e = s.node v := by
        simp only [copyVma, setLinks, setNode, update_self, hs₁]
      have hshm : (s₁.copyVma e v).shm = s.shm := by
        simp only [copyVma, setLinks, setNode, hs₁]
      simp only [hev, hshm] at hr
      split at hr
      · rename_i hshare
        rw [if_pos (hpages v (by simp) hshare.1 hshare.2)] at hr
        refine hround _ ?_ ?_ ?_ ?_ ?_ hr
        · rfl
        · rfl
        · rfl
        · rfl
        · intro k
          by_cases hk : k = (s.node v).shmKernel
          · simp only [setShm, hk, update_self]
          · simp only [setShm, update_of_ne hk, hshm]
      · exact hround _ rfl rfl rfl rfl (fun k => by rw [hshm]) hr

/-! ## The lists of all processes -/

/-- Every process with a list owns the nodes `l pid`, nobody else's pages point into them, and its
areas are sorted. -/
structure Inv (s : VmaMem) (l : Nat → List Nat) : Prop where
  owns : ∀ pid, s.head pid ≠ NULL → s.Owns (s.head pid) (l pid) []
  closed : ∀ pid, s.head pid ≠ NULL → s.Closed (owned (s.head pid) (l pid) [])
  closed_nil : s.Closed []
  apart : ∀ pid qid, pid ≠ qid → s.head pid ≠ NULL → s.head qid ≠ NULL →
    (owned (s.head pid) (l pid) []).Disjoint (owned (s.head qid) (l qid) [])
  sorted : ∀ pid, s.head pid ≠ NULL → Vma.Sorted ((l pid).map s.node)

namespace Inv

variable {l : Nat → List Nat} {l' O : List Nat}

/-- One process moves from the pages `O` to a sorted list; the other processes keep theirs. -/
theorem step (hi : s.Inv l) (hhead : ∀ q, q ≠ pid → s'.head q = s.head q)
    (hO : ∀ q, q ≠ pid → s.head q ≠ NULL → O.Disjoint (owned (s.head q) (l q) []))
    (hc : s.Closed O)
    (hm : Moved { s with head := s'.head } s' O (owned (s'.head pid) l' []))
    (ho : s'.Owns (s'.head pid) l' []) (hsort : Vma.Sorted (l'.map s'.node)) :
    s'.Inv (update l pid l') := by
  -- the pages of another process are used, and outside both `O` and the new list
  have hother : ∀ q, q ≠ pid → s.head q ≠ NULL → ∀ x ∈ owned (s.head q) (l q) [],
      s.used x = true ∧ x ∉ O ∧ x ∉ owned (s'.head pid) l' [] := by
    intro q hq hne x hx
    have hused := (hi.owns q hne).used x hx
    have hxO : x ∉ O := fun hmem => hO q hq hne hmem hx
    refine ⟨hused, hxO, ?_⟩
    intro hmem
    rcases hm.fresh x hmem with h | h
    · exact hxO h
    · rw [show s.used x = true from hused] at h
      cases h
  have hframe : ∀ q, q ≠ pid → s.head q ≠ NULL → ∀ x ∈ owned (s.head q) (l q) [],
      s'.used x = true ∧ s'.node x = s.node x ∧ s'.links.next x = s.links.next x ∧
        s'.links.prev x = s.links.prev x := by
    intro q hq hne x hx
    obtain ⟨hused, hxO, -⟩ := hother q hq hne x hx
    exact hm.frame x hused hxO
  -- what a page points to, for the pages of `pid` and for all others
  have hnext : ∀ x, s'.used x = true →
      (x ∈ owned (s'.head pid) l' [] ∧ s'.links.next x ∈ owned (s'.head pid) l' []) ∨
      (s.used x = true ∧ x ∉ O ∧ s'.links.next x = s.links.next x ∧ s'.used (s.links.next x) = true) := by
    intro x hx
    rcases hm.back x hx with hmem | ⟨hused, hxO⟩
    · have hmem' : x ∈ s'.head pid :: l' := by simpa using hmem
      exact .inl ⟨hmem, ho.mem_circular (ho.circular.next_mem_ring hmem')⟩
    · obtain ⟨hnu, hnO⟩ := hc x hused hxO
      exact .inr ⟨hused, hxO, (hm.frame x hused hxO).2.2.1, (hm.frame _ hnu hnO).1⟩
  have hclosed_pid : s'.Closed (owned (s'.head pid) l' []) := hm.closed hc
  refine ⟨?_, ?_, ?_, ?_, ?_⟩
  · intro q hne
    by_cases hq : q = pid
    · subst hq
      rwa [update_self]
    · rw [hhead q hq] at hne ⊢
      rw [update_of_ne hq]
      have hoq := hi.owns q hne
      have hfr := hframe q hq hne
      refine ⟨hoq.circular.congr ?_ ?_, hoq.nodup, fun x hx => (hfr x hx).1⟩
      · exact fun x hx => (hfr x (hoq.mem_circular hx)).2.2.1
      · exact fun x hx => (hfr x (hoq.mem_circular hx)).2.2.2
  · intro q hne
    by_cases hq : q = pid
    · subst hq
      rwa [update_self]
    · rw [hhead q hq] at hne ⊢
      rw [update_of_ne hq]
      intro x hx hxq
      rcases hnext x hx with ⟨-, hn⟩ | ⟨hused, -, heq, hn⟩
      · exact ⟨ho.used _ hn, fun hmem => (hother q hq hne _ hmem).2.2 hn⟩
      · rw [heq]
        exact ⟨hn, (hi.closed q hne x hused hxq).2⟩
  · intro x hx _
    rcases hnext x hx with ⟨-, hn⟩ | ⟨-, -, heq, hn⟩
    · exact ⟨ho.used _ hn, by simp⟩
    · rw [heq]
      exact ⟨hn, by simp⟩
  · intro p q hpq hp hq
    by_cases hpp : p = pid
    · subst hpp
      have hq' : q ≠ p := Ne.symm hpq
      rw [hhead q hq'] at hq ⊢
      rw [update_self, update_of_ne hq']
      exact fun x hx hxq => (hother q hq' hq x hxq).2.2 hx
    · rw [hhead p hpp] at hp ⊢
      rw [update_of_ne hpp]
      by_cases hqp : q = pid
      · subst hqp
        rw [update_self]
        exact fun x hxp hx => (hother p hpp hp x hxp).2.2 hx
      · rw [hhead q hqp] at hq ⊢
        rw [update_of_ne hqp]
        exact hi.apart p q hpq hp hq
  · intro q hne
    by_cases hq : q = pid
    · subst hq
      rwa [update_self]
    · rw [hhead q hq] at hne
      rw [update_of_ne hq]
      have hmap : (l q).map s'.node = (l q).map s.node :=
        List.map_congr_left fun x hx => (hframe q hq hne x (by simp [hx])).2.1
      rw [hmap]
      exact hi.sorted q hne

/-- A routine that works on the list of `pid`. -/
theorem step_self (hi : s.Inv l) (hne : s.head pid ≠ NULL)
    (hm : Moved s s' (owned (s.head pid) (l pid) []) (owned (s.head pid) l' []))
    (ho : s'.Owns (s.head pid) l' []) (hsort : Vma.Sorted (l'.map s'.node)) :
    s'.Inv (update l pid l') := by
  have hhead := hm.head
  have hh : s'.head pid = s.head pid := by rw [hhead]
  have hs : ({ s with head := s'.head } : VmaMem) = s := by rw [hhead]
  rw [← hh] at ho
  refine hi.step (fun q _ => by rw [hhead]) ?_ (hi.closed pid hne) ?_ ho hsort
  · exact fun q hq hqn => hi.apart pid q (Ne.symm hq) hne hqn
  · rw [hs, hh]
    exact hm

end Inv

end VmaMem

/-! ## Runs -/

/-- The calls of the list routines, by the process that makes them. -/
inductive VmaCall where
  | vmaInit (pid : Nat)
  | allocVma (pid : Nat) (type : SegType) (addr : Nat) (sz : Int) (perm : Nat) (alloc : Bool) (pa : Nat)
  | munmap (pid start : Nat) (len : Int)
  | freeVma (pid start end_ : Nat)
  | vmaCopy (pid np : Nat)

namespace VmaCall

def run (ops : PageOps) (fuel : Nat) (s : VmaMem) : VmaCall → Option VmaMem
  | vmaInit pid => VmaMem.vmaInit ops s fuel pid
  | allocVma pid type addr sz perm alloc pa =>
    (VmaMem.allocVma ops s fuel pid type addr sz perm alloc pa).map Prod.snd
  | munmap pid start len => (VmaMem.munmap ops s fuel pid start len).map Prod.snd
  | freeVma pid start end_ => (s.freeVma fuel pid start end_).map Prod.snd
  | vmaCopy pid np => (s.vmaCopy fuel pid np).map Prod.snd

/-- Addresses are page aligned and lengths positive, both of the types of the source; a list is
copied to another process, and only while every shared VMA's segment has its pages. -/
def Legal (s : VmaMem) : VmaCall → Prop
  | vmaInit _ => True
  | allocVma _ _ addr sz _ _ _ => PGSIZE ∣ addr ∧ addr < 2 ^ 64 ∧ 0 < sz ∧ sz < 2 ^ 63
  | munmap _ start len => PGSIZE ∣ start ∧ start < 2 ^ 64 ∧ 0 < len ∧ len < 2 ^ 31
  | freeVma _ start end_ => PGSIZE ∣ start ∧ PGSIZE ∣ end_ ∧ start < end_ ∧ end_ < 2 ^ 64
  | vmaCopy pid np => pid ≠ np ∧ ∀ x, s.used x = true → s.OwnsPages x

/-- The end of a new area, rounded up to a page, is still below `2 ^ 64`. -/
def NoWrap : VmaCall → Prop
  | allocVma _ _ addr sz _ _ _ => addr + sz ≤ 2 ^ 64 - PGSIZE
  | _ => True

end VmaCall

namespace VmaMem

/-- What the rest of the kernel may do between two calls: write any field of a VMA but its bounds
and links, the segments, and any page that holds no VMA. -/
structure Elsewhere (s s' : VmaMem) : Prop where
  head : s'.head = s.head
  used : s'.used = s.used
  bounds : ∀ x, s.used x = true → (s'.node x).addr = (s.node x).addr ∧ (s'.node x).end_ = (s.node x).end_
  links : ∀ x, s.used x = true → s'.links.next x = s.links.next x ∧ s'.links.prev x = s.links.prev x

/-- One call that meets `P`, with any answers of the allocator, or a step of the rest of the
kernel. -/
inductive Step (P : VmaCall → Prop) (s s' : VmaMem) : Prop where
  | call (c : VmaCall) (ops : PageOps) (fuel : Nat) (ps : List Nat) (hlegal : c.Legal s) (hP : P c)
      (hrun : c.run ops fuel { s with supply := ps } = some s')
  | elsewhere (h : Elsewhere s s')

/-- No process has a list yet. -/
structure Fresh (s : VmaMem) : Prop where
  head : ∀ pid, s.head pid = NULL
  used : ∀ x, s.used x = false

variable {ops : PageOps} {s s' : VmaMem} {fuel pid np h e : Nat} {l : Nat → List Nat}

theorem Fresh.inv (hf : s.Fresh) : s.Inv fun _ => [] where
  owns := fun pid hne => absurd (hf.head pid) hne
  closed := fun pid hne => absurd (hf.head pid) hne
  closed_nil := fun x hx => by
    rw [hf.used x] at hx
    cases hx
  apart := fun pid _ _ hne => absurd (hf.head pid) hne
  sorted := fun pid hne => absurd (hf.head pid) hne

namespace Inv

theorem setSupply (hi : s.Inv l) (ps : List Nat) : ({ s with supply := ps } : VmaMem).Inv l where
  owns := fun pid hne => ⟨(hi.owns pid hne).circular, (hi.owns pid hne).nodup, (hi.owns pid hne).used⟩
  closed := hi.closed
  closed_nil := hi.closed_nil
  apart := hi.apart
  sorted := hi.sorted

theorem elsewhere (hi : s.Inv l) (h : Elsewhere s s') : s'.Inv l := by
  refine ⟨?_, ?_, ?_, ?_, ?_⟩
  · intro pid hne
    rw [h.head] at hne ⊢
    have ho := hi.owns pid hne
    refine ⟨ho.circular.congr ?_ ?_, ho.nodup, by rw [h.used]; exact ho.used⟩
    · exact fun x hx => (h.links x (ho.used x (ho.mem_circular hx))).1
    · exact fun x hx => (h.links x (ho.used x (ho.mem_circular hx))).2
  · intro pid hne
    rw [h.head] at hne ⊢
    intro x hx hO
    rw [h.used] at hx ⊢
    rw [(h.links x hx).1]
    exact hi.closed pid hne x hx hO
  · intro x hx hO
    rw [h.used] at hx ⊢
    rw [(h.links x hx).1]
    exact hi.closed_nil x hx hO
  · rw [h.head]
    exact hi.apart
  · intro pid hne
    rw [h.head] at hne
    have hused := (hi.owns pid hne).used
    obtain ⟨hpw, hok⟩ := hi.sorted pid hne
    have hb : ∀ x ∈ l pid, _ := fun x hx => h.bounds x (hused x (by simp [hx]))
    rw [List.pairwise_map] at hpw
    refine ⟨?_, ?_⟩
    · rw [List.pairwise_map]
      refine hpw.imp_of_mem ?_
      intro x y hx hy hxy
      rw [(hb x hx).2, (hb y hy).1]
      exact hxy
    · intro v hv
      obtain ⟨x, hx, rfl⟩ := List.mem_map.mp hv
      obtain ⟨h₁, h₂, h₃⟩ := hok _ (List.mem_map_of_mem hx)
      obtain ⟨ha, he⟩ := hb x hx
      exact ⟨by rw [ha, he]; exact h₁, by rw [he]; exact h₂, by rw [ha, he]; exact h₃⟩

/-- A cut of the list of `pid` whose parts are sorted. -/
theorem cut {f : Vma → List Vma} {l' : List Nat} (hi : s.Inv l) (hne : s.head pid ≠ NULL)
    (hcut : Cut f s s' (s.head pid) [] (l pid) l')
    (hf : ∀ v : Vma, v.Ok → Vma.Sorted (f v) ∧ ∀ w ∈ f v, w.Within v) :
    s'.Inv (update l pid l') := by
  refine hi.step_self hne hcut.moved hcut.owns ?_
  rw [hcut.rest]
  have hsort := hi.sorted pid hne
  exact hsort.flatMap fun v hv => hf v (hsort.2 v hv)

end Inv

/-- The range of `munmap` is in order, or it wrapped and its end is far below its start. -/
theorem apart_munmap {start : Nat} {len : Int} (hal : PGSIZE ∣ start) (hlen : 0 < len) (hlt : len < 2 ^ 31) :
    Vma.Apart (pgRoundDown start) (pgRoundDown (toU64 (start + len))) := by
  simp only [Vma.Apart, pgRoundDown, toU64, PGSIZE] at *
  omega

theorem pgRoundUp_eq {a : Nat} (h : a + PGSIZE ≤ 2 ^ 64) : pgRoundUp a = (a + 4095) / 4096 * 4096 := by
  have hlt : a + (PGSIZE - 1) < 2 ^ 64 := by
    simp only [PGSIZE] at *
    omega
  rw [pgRoundUp, alignUp, add64, Nat.mod_eq_of_lt hlt]
  rfl

/-- Rounding the bounds of a new area that does not wrap. -/
theorem initVma_ok {old : Vma} {type : SegType} {addr perm : Nat} {sz : Int} (hal : PGSIZE ∣ addr)
    (hpos : 0 ≤ sz) (hlt : sz < 2 ^ 63) (hwrap : addr + sz ≤ 2 ^ 64 - PGSIZE) :
    (initVma old type (pgRoundUp addr) (pgRoundUp (toU64 (addr + sz))) sz perm).Ok := by
  obtain ⟨n, rfl⟩ := Int.eq_ofNat_of_zero_le hpos
  obtain ⟨k, rfl⟩ := hal
  have hsum : PGSIZE * k + n + PGSIZE ≤ 2 ^ 64 := by omega
  have hu : toU64 ((PGSIZE * k : Nat) + (n : Int)) = PGSIZE * k + n := by
    have hlt : PGSIZE * k + n < 2 ^ 64 := by
      simp only [PGSIZE] at *
      omega
    rw [toU64, ← Int.natCast_add]
    exact_mod_cast congrArg Int.toNat (congrArg Int.ofNat (Nat.mod_eq_of_lt hlt))
  have haddr : pgRoundUp (PGSIZE * k) = 4096 * k := by
    rw [pgRoundUp_eq (by omega)]
    simp only [PGSIZE]
    omega
  have hend := pgRoundUp_eq hsum
  rw [hu, haddr, hend]
  simp only [PGSIZE] at *
  refine ⟨?_, ?_, ?_⟩ <;> simp only [initVma] <;> omega

namespace Inv

/-- Inserting an area that does not wrap. -/
theorem allocVma {type : SegType} {addr perm pa vma : Nat} {sz : Int} {alloc : Bool}
    (hi : s.Inv l) (hal : PGSIZE ∣ addr) (hpos : 0 ≤ sz) (hlt : sz < 2 ^ 63)
    (hwrap : addr + sz ≤ 2 ^ 64 - PGSIZE)
    (hr : allocVma ops s fuel pid type addr sz perm alloc pa = some (vma, s')) :
    ∃ l', s'.Inv (update l pid l') ∧ s'.head = s.head ∧ vma ∈ l' := by
  have hne : s.head pid ≠ NULL := by
    intro h0
    rw [VmaMem.allocVma, if_pos h0] at hr
    cases hr
  rcases allocVma_spec (hi.owns pid hne) hr with ⟨rfl, hmem⟩ |
    ⟨l₁, l₂, old, hl, ho, hm, hdata, hbefore, hafter⟩
  · exact ⟨l pid, by rwa [Function.update_eq_self], rfl, hmem⟩
  · refine ⟨l₁ ++ vma :: l₂, hi.step_self hne hm ho ?_, hm.head, by simp⟩
    have hsort := hi.sorted pid hne
    rw [hl, List.map_append] at hsort
    rw [hdata]
    refine hsort.insert (initVma_ok hal hpos hlt hwrap) ?_ ?_
    · intro v hv
      obtain ⟨x, hx, rfl⟩ := List.mem_map.mp hv
      exact hbefore x hx
    · -- the first area after the new one starts late enough, and the others start later still
      intro v hv
      cases l₂ with
      | nil => cases hv
      | cons x m =>
        have hfirst := hafter x m rfl
        rw [List.map_cons] at hv hsort
        rcases List.mem_cons.mp hv with rfl | hv
        · exact hfirst
        · have htail := (List.pairwise_append.mp hsort.1).2.1
          have hx := (List.pairwise_cons.mp htail).1 v hv
          have hok := (hsort.2 (s.node x) (by simp)).le
          exact (hfirst.trans hok).trans hx

theorem vmaInit (hi : s.Inv l) (hr : vmaInit ops s fuel pid = some s') : ∃ l', s'.Inv (update l pid l') := by
  unfold VmaMem.vmaInit at hr
  obtain ⟨⟨e, s₁⟩, ha, hr⟩ := Option.bind_eq_some_iff.mp hr
  obtain ⟨hnull, -, ps, hs₁⟩ := allocPage_eq_some ha
  simp only at hr
  obtain ⟨⟨vma, s₂⟩, hmmap, rfl⟩ := Option.map_eq_some_iff.mp hr
  generalize ht : ({ (s₁.setNode e Vma.zero).setLinks
    (((s₁.setNode e Vma.zero).links.setNext e e).setPrev e e) with
      head := update ((s₁.setNode e Vma.zero).setLinks
        (((s₁.setNode e Vma.zero).links.setNext e e).setPrev e e)).head pid e } : VmaMem) = t at hmmap
  have hhead : t.head = update s.head pid e := by
    rw [← ht, hs₁]
    rfl
  -- the new list, still without an area
  have hborn : t.Owns e [] [] ∧ Moved { s with head := update s.head pid e } t [] [e] := by
    refine born ha (by rw [← ht]; rfl) hhead ?_ ?_ ?_ ?_
    · intro x hx
      rw [← ht, hs₁]
      simp only [setLinks, setNode, update_of_ne hx]
    · rw [← ht, hs₁]
      exact ((AgreeOff.refl _ _).setNext (by simp) _).setPrev (by simp) _
    · rw [← ht]
      simp only [setLinks, Links.setPrev_next, Links.setNext_next, if_true]
    · rw [← ht]
      simp only [setLinks, Links.setPrev_prev, if_true]
  have hpid : t.head pid = e := by rw [hhead, update_self]
  have hi₁ : t.Inv (update l pid []) := by
    refine hi.step (O := []) ?_ ?_ hi.closed_nil ?_ ?_ ⟨List.Pairwise.nil, by simp⟩
    · intro q hq
      rw [hhead, update_of_ne hq]
    · exact fun _ _ _ => by simp
    · rw [hpid, hhead]
      exact hborn.2
    · rw [hpid]
      exact hborn.1
  -- the empty area at the start of the mmap region
  unfold VmaMem.allocMmapVma at hmmap
  obtain ⟨v, -, hmmap⟩ := Option.bind_eq_some_iff.mp hmmap
  have hstart : USER_MMAP_START ≠ 0 := by decide
  simp only [if_neg hstart] at hmmap
  obtain ⟨⟨vma', s₃⟩, halloc, heq⟩ := Option.map_eq_some_iff.mp hmmap
  obtain ⟨l', hi₂, hhead₂, hmem⟩ := hi₁.allocVma (by decide) (by decide) (by decide) (by decide) halloc
  simp only at heq
  obtain ⟨-, rfl⟩ := Prod.mk.inj heq
  refine ⟨l', ?_⟩
  rw [Function.update_idem] at hi₂
  refine hi₂.elsewhere ⟨rfl, rfl, ?_, fun x _ => ⟨rfl, rfl⟩⟩
  intro x _
  by_cases hx : x = vma'
  · subst hx
    simp only [setNode, update_self, and_self]
  · simp only [setNode, update_of_ne hx, and_self]

/-- `vma_copy` gives the new process a list with the areas of its source. -/
theorem vmaCopy {new : Nat} (hi : s.Inv l) (hpages : ∀ x, s.used x = true → s.OwnsPages x)
    (hr : s.vmaCopy fuel pid np = some (new, s')) :
    s.head pid ≠ NULL ∧ s'.head np = new ∧ new ≠ NULL ∧
      ∃ l', s'.Inv (update l np l') ∧ l'.map s'.node = (l pid).map s.node := by
  unfold VmaMem.vmaCopy at hr
  split at hr
  · cases hr
  · rename_i hne
    obtain ⟨⟨e, s₁⟩, ha, hr⟩ := Option.bind_eq_some_iff.mp hr
    obtain ⟨hnull, hfree, ps, hs₁⟩ := allocPage_eq_some ha
    simp only at hr
    obtain ⟨s₂, hloop, heq⟩ := Option.map_eq_some_iff.mp hr
    obtain ⟨rfl, rfl⟩ := Prod.mk.inj heq
    have hh : s₁.head pid = s.head pid := by rw [hs₁]
    rw [hh] at hloop
    generalize ht : ({ (s₁.setLinks ((s₁.links.setPrev e e).setNext e e)).setNode e
      { (s₁.setLinks ((s₁.links.setPrev e e).setNext e e)).node e with type := .NONE } with
        head := update ((s₁.setLinks ((s₁.links.setPrev e e).setNext e e)).setNode e
          { (s₁.setLinks ((s₁.links.setPrev e e).setNext e e)).node e with type := .NONE }).head np e } :
            VmaMem) = t at hloop
    have hhead : t.head = update s.head np e := by
      rw [← ht, hs₁]
      rfl
    have hnode : ∀ x, x ≠ e → t.node x = s.node x := by
      intro x hx
      rw [← ht, hs₁]
      simp only [setLinks, setNode, update_of_ne hx]
    have hshm : t.shm = s.shm := by
      rw [← ht, hs₁]
      rfl
    have hlinks : t.links = (s₁.links.setPrev e e).setNext e e := by
      rw [← ht]
      rfl
    have hloop : vmaCopyLoop (s.head pid) e fuel (t.links.next (s.head pid)) t = some s₂ := by
      rw [hlinks]
      exact hloop
    have hborn : t.Owns e [] [] ∧ Moved { s with head := update s.head np e } t [] [e] := by
      refine born ha (by rw [← ht]; rfl) hhead hnode ?_ ?_ ?_
      · rw [← ht, hs₁]
        exact ((AgreeOff.refl _ _).setPrev (by simp) _).setNext (by simp) _
      · rw [← ht]
        simp only [setLinks, setNode, Links.setNext_next, if_true]
      · rw [← ht]
        simp only [setLinks, setNode, Links.setNext_prev, Links.setPrev_prev, if_true]
    obtain ⟨hot, hmt⟩ := hborn
    -- the source is untouched so far
    have ho := hi.owns pid hne
    have hsrc : ∀ x ∈ s.head pid :: l pid, s.used x = true ∧ x ≠ e := by
      intro x hx
      have hused := ho.used x (ho.mem_circular hx)
      refine ⟨hused, ?_⟩
      rintro rfl
      rw [hused] at hfree
      cases hfree
    have hframe : ∀ x ∈ s.head pid :: l pid, _ := fun x hx => hmt.frame x (hsrc x hx).1 (by simp)
    have hcirc : t.links.Circular (s.head pid) ([] ++ l pid) :=
      ho.circular.congr (fun x hx => (hframe x hx).2.2.1) (fun x hx => (hframe x hx).2.2.2)
    have hforeign : ∀ x ∈ s.head pid :: ([] ++ l pid), t.used x = true ∧ x ∉ owned e [] [] :=
      fun x hx => ⟨(hframe x hx).1, by simpa using (hsrc x hx).2⟩
    have hpages' : ∀ x ∈ l pid, t.OwnsPages x := by
      intro x hx
      have hx' : x ∈ s.head pid :: l pid := List.mem_cons_of_mem _ hx
      unfold OwnsPages
      rw [(hframe x hx').2.1, hshm]
      exact hpages x (hsrc x hx').1
    rw [hcirc.next_head] at hloop
    obtain ⟨l', ho', hm', hdata, -⟩ := vmaCopyLoop_spec hot hcirc hforeign hpages' hloop
    have hnp : s₂.head np = e := by rw [hm'.head, hhead, update_self]
    have hdata' : l'.map s₂.node = (l pid).map s.node := by
      rw [hdata]
      exact List.map_congr_left fun x hx => (hframe x (List.mem_cons_of_mem _ hx)).2.1
    refine ⟨hne, hnp, hnull, l', ?_, hdata'⟩
    refine hi.step (O := []) ?_ ?_ hi.closed_nil ?_ ?_ ?_
    · intro q hq
      rw [hm'.head, hhead, update_of_ne hq]
    · exact fun _ _ _ => by simp
    · rw [hnp, hm'.head, hhead]
      exact hmt.trans hm'
    · rw [hnp]
      exact ho'
    · rw [hdata']
      exact hi.sorted pid hne

/-- Every call that does not wrap, and everything between the calls, keeps the invariant. -/
theorem of_step (hi : s.Inv l) (h : Step VmaCall.NoWrap s s') : ∃ l', s'.Inv l' := by
  cases h with
  | elsewhere h => exact ⟨l, hi.elsewhere h⟩
  | call c ops fuel ps hlegal hP hrun =>
    have hi' := hi.setSupply ps
    cases c with
    | vmaInit pid =>
      obtain ⟨l', hl'⟩ := hi'.vmaInit hrun
      exact ⟨_, hl'⟩
    | allocVma pid type addr sz perm alloc pa =>
      obtain ⟨hal, -, hpos, hlt⟩ := hlegal
      obtain ⟨⟨vma, s₁⟩, hr, rfl⟩ := Option.map_eq_some_iff.mp hrun
      obtain ⟨l', hl', -⟩ := hi'.allocVma hal hpos.le hlt hP hr
      exact ⟨_, hl'⟩
    | munmap pid start len =>
      obtain ⟨hal, hstart, hpos, hlt⟩ := hlegal
      obtain ⟨⟨r, s₁⟩, hr, rfl⟩ := Option.map_eq_some_iff.mp hrun
      by_cases hne : ({ s with supply := ps } : VmaMem).head pid = NULL
      · rw [VmaMem.munmap, if_pos hne] at hr
        cases hr
      · obtain ⟨l', hcut⟩ := munmap_spec (hi'.owns pid hne) (hi'.closed pid hne) hpos hr
        exact ⟨_, hi'.cut hne hcut fun v hv => hv.unmap (apart_munmap hal hpos hlt)⟩
    | freeVma pid start end_ =>
      obtain ⟨-, -, hle, -⟩ := hlegal
      obtain ⟨⟨r, s₁⟩, hr, rfl⟩ := Option.map_eq_some_iff.mp hrun
      by_cases hne : ({ s with supply := ps } : VmaMem).head pid = NULL
      · rw [VmaMem.freeVma, if_pos (.inl hne)] at hr
        cases hr
        exact ⟨l, hi'⟩
      · rcases freeVma_spec (hi'.owns pid hne) hr with rfl | ⟨l', hcut⟩
        · exact ⟨l, hi'⟩
        · exact ⟨_, hi'.cut hne hcut fun v hv => hv.release hle.le⟩
    | vmaCopy pid np =>
      obtain ⟨-, hpages⟩ := hlegal
      obtain ⟨⟨new, s₁⟩, hr, rfl⟩ := Option.map_eq_some_iff.mp hrun
      obtain ⟨-, -, -, l', hl', -⟩ := hi'.vmaCopy hpages hr
      exact ⟨_, hl'⟩

end Inv

/-- Following `next` from `h` meets the nodes `l` and comes back to `h`. -/
def Nodes (s : VmaMem) (h : Nat) (l : List Nat) : Prop := s.links.walk h l.length (s.links.next h) = some l

/-- The list with the anchor `h` is circular and doubly linked, its areas have their bounds in
order, are sorted by address and share no address. -/
def WellFormed (s : VmaMem) (h : Nat) : Prop :=
  ∃ l, s.Nodes h l ∧
    (∀ x ∈ h :: l, s.links.prev (s.links.next x) = x ∧ s.links.next (s.links.prev x) = x) ∧
    (∀ x ∈ l, (s.node x).addr ≤ (s.node x).end_) ∧
    l.Pairwise (fun x y => (s.node x).addr ≤ (s.node y).addr) ∧
    l.Pairwise (fun x y => ∀ a, ¬(((s.node x).addr ≤ a ∧ a < (s.node x).end_) ∧
      ((s.node y).addr ≤ a ∧ a < (s.node y).end_)))

/-- What `vma_copy` has to repeat of an area. -/
def shape (s : VmaMem) (x : Nat) : Nat × Nat × SegType × Nat :=
  ((s.node x).addr, (s.node x).end_, (s.node x).type, (s.node x).perm)

theorem Inv.wellFormed (hi : s.Inv l) (hne : s.head pid ≠ NULL) : s.WellFormed (s.head pid) := by
  have ho := hi.owns pid hne
  obtain ⟨hpw, hok⟩ := hi.sorted pid hne
  rw [List.pairwise_map] at hpw
  have hok' : ∀ x ∈ l pid, (s.node x).Ok := fun x hx => hok _ (List.mem_map_of_mem hx)
  refine ⟨l pid, ho.circular.walk_eq (le_refl _), fun x hx => ho.circular.prev_next hx,
    fun x hx => (hok' x hx).le, hpw.imp_of_mem ?_, hpw.imp ?_⟩
  · intro x y hx _ hxy
    exact (hok' x hx).le.trans hxy
  · intro x y hxy a ha
    omega

/-- In every run of the list routines in which no new area wraps, every list stays well formed, and
`vma_copy` gives the new process the areas of its source, in order. -/
theorem vmaLists_wellFormed {s₀ : VmaMem} (hfresh : s₀.Fresh)
    (hrun : Reaches (Step VmaCall.NoWrap) s₀ s) :
    (∀ pid, s.head pid ≠ NULL → s.WellFormed (s.head pid)) ∧
    ∀ fuel pid np ps new s', (VmaCall.vmaCopy pid np).Legal s →
      ({ s with supply := ps } : VmaMem).vmaCopy fuel pid np = some (new, s') →
      s'.head np = new ∧ s'.WellFormed new ∧
        ∃ l l', s.Nodes (s.head pid) l ∧ s'.Nodes new l' ∧ l'.map s'.shape = l.map s.shape := by
  obtain ⟨l, hi⟩ : ∃ l, s.Inv l :=
    hrun.invariant (I := fun t => ∃ l, t.Inv l) ⟨_, hfresh.inv⟩
      fun t t' ⟨l, hi⟩ hstep => hi.of_step hstep
  refine ⟨fun pid hne => hi.wellFormed hne, ?_⟩
  intro fuel pid np ps new s' ⟨_, hpages⟩ hcopy
  have hi' := hi.setSupply ps
  obtain ⟨hne, hnp, hnull, l', hl', hdata⟩ := hi'.vmaCopy hpages hcopy
  have hne' : s'.head np ≠ NULL := by rwa [hnp]
  have ho' := hl'.owns np hne'
  rw [Function.update_self, hnp] at ho'
  refine ⟨hnp, by rw [← hnp]; exact hl'.wellFormed hne', l pid, l', ?_, ?_, ?_⟩
  · exact (hi.owns pid hne).circular.walk_eq (le_refl _)
  · exact ho'.circular.walk_eq (le_refl _)
  · have hshape := congrArg (List.map fun v : Vma => (v.addr, v.end_, v.type, v.perm)) hdata
    rw [List.map_map, List.map_map] at hshape
    exact hshape

/-! ## Two runs -/

/-- A sequence of calls, each with the pages that the allocator has for it. -/
def runAll (ops : PageOps) (fuel : Nat) : List (VmaCall × List Nat) → VmaMem → Option VmaMem
  | [], s => some s
  | (c, ps) :: cs, s => (c.run ops fuel { s with supply := ps }).bind (runAll ops fuel cs)

theorem runAll_reaches {P : VmaCall → Prop} {cs : List (VmaCall × List Nat)}
    (hlegal : ∀ c ∈ cs, ∀ t, c.1.Legal t) (hP : ∀ c ∈ cs, P c.1)
    (hr : runAll ops fuel cs s = some s') : Reaches (Step P) s s' := by
  induction cs generalizing s with
  | nil =>
    cases hr
    exact .refl
  | cons c cs ih =>
    obtain ⟨s₁, hs₁, hr⟩ := Option.bind_eq_some_iff.mp hr
    have hstep : Step P s s₁ := .call c.1 ops fuel c.2 (hlegal c (by simp) s) (hP c (by simp)) hs₁
    have hrest := ih (fun d hd => hlegal d (by simp [hd])) (fun d hd => hP d (by simp [hd])) hr
    exact Relation.ReflTransGen.head hstep hrest

/-- The page-table routines always succeed. -/
def allOk : PageOps := ⟨fun _ _ _ _ => true, fun _ _ _ _ _ => true, fun _ _ _ _ => true⟩

/-- Memory before the first list. -/
def boot : VmaMem :=
  { links := ⟨fun _ => 0, fun _ => 0⟩, node := fun _ => Vma.zero, used := fun _ => false, supply := [],
    shm := fun _ => ⟨0, 0, 0, false, none, 0⟩, head := fun _ => NULL, sz := fun _ => 0,
    mapAddr := USER_MMAP_START }

theorem boot_fresh : boot.Fresh := ⟨fun _ => rfl, fun _ => rfl⟩

/-- A mapping of three pages whose middle page is unmapped again. -/
def splitCalls : List (VmaCall × List Nat) :=
  [(.vmaInit 1, [0x1000, 0x2000]),
    (.allocVma 1 .MMAP 0x10000 0x3000 0 false 0, [0x3000]),
    (.munmap 1 0x11000 0x1000, [0x4000, 0x5000])]

/-- The list after the mapping was split in two. -/
theorem vmaLists_wellFormed_split :
    boot.Fresh ∧ ∃ s, Reaches (Step VmaCall.NoWrap) boot s ∧ s.head 1 = 0x1000 ∧
      s.Nodes 0x1000 [0x4000, 0x5000, 0x2000] ∧ s.WellFormed (s.head 1) := by
  refine ⟨boot_fresh, ?_⟩
  obtain ⟨s, hs, hhead, hnodes⟩ : ∃ s, runAll allOk 4 splitCalls boot = some s ∧
      s.head 1 = 0x1000 ∧ s.Nodes 0x1000 [0x4000, 0x5000, 0x2000] :=
    ⟨(runAll allOk 4 splitCalls boot).get (by decide), by simp, by decide, by unfold Nodes; decide⟩
  have hreach : Reaches (Step VmaCall.NoWrap) boot s := by
    refine runAll_reaches ?_ ?_ hs
    · simp only [splitCalls, List.mem_cons, List.not_mem_nil, or_false]
      rintro c (rfl | rfl | rfl) t
      · trivial
      · exact ⟨by decide, by decide, by decide, by decide⟩
      · exact ⟨by decide, by decide, by decide, by decide⟩
    · simp only [splitCalls, List.mem_cons, List.not_mem_nil, or_false]
      rintro c (rfl | rfl | rfl)
      · trivial
      · simp only [VmaCall.NoWrap]
        decide
      · trivial
  refine ⟨s, hreach, hhead, hnodes, (vmaLists_wellFormed boot_fresh hreach).1 1 ?_⟩
  rw [hhead]
  decide

/-- The first area of a well-formed list has its bounds in order. -/
theorem WellFormed.first (hw : s.WellFormed h) (hne : s.links.next h ≠ h) :
    (s.node (s.links.next h)).addr ≤ (s.node (s.links.next h)).end_ := by
  obtain ⟨l, hnodes, -, hle, -⟩ := hw
  unfold Nodes at hnodes
  cases l with
  | nil =>
    rw [List.length_nil, Links.walk, if_neg hne] at hnodes
    cases hnodes
  | cons x l =>
    rw [List.length_cons, Links.walk, if_neg hne] at hnodes
    obtain ⟨m, -, hm⟩ := Option.map_eq_some_iff.mp hnodes
    obtain ⟨rfl, -⟩ := List.cons.inj hm
    exact hle _ (List.mem_cons_self ..)

/-- One page mapped at the last page of the address space. -/
def lastPageCalls : List (VmaCall × List Nat) :=
  [(.vmaInit 1, [0x1000, 0x2000]), (.allocVma 1 .MMAP 0xfffffffffffff000 0x1000 0 false 0, [0x3000])]

/-- The end of the new area wraps to zero: the area goes to the front of the list with its end below
its start. -/
theorem not_wellFormed_lastPage :
    ¬∀ s, Reaches (Step fun _ => True) boot s → ∀ pid, s.head pid ≠ NULL →
      s.WellFormed (s.head pid) := by
  intro hall
  obtain ⟨s, hs, hhead, hnext, hbad⟩ : ∃ s, runAll allOk 4 lastPageCalls boot = some s ∧
      s.head 1 = 0x1000 ∧ s.links.next 0x1000 = 0x3000 ∧ (s.node 0x3000).end_ < (s.node 0x3000).addr :=
    ⟨(runAll allOk 4 lastPageCalls boot).get (by decide), by simp, by decide, by decide, by decide⟩
  have hreach : Reaches (Step fun _ => True) boot s := by
    refine runAll_reaches ?_ (fun _ _ => trivial) hs
    simp only [lastPageCalls, List.mem_cons, List.not_mem_nil, or_false]
    rintro c (rfl | rfl) t
    · trivial
    · exact ⟨by decide, by decide, by decide, by decide⟩
  have hw := hall s hreach 1 (by rw [hhead]; decide)
  rw [hhead] at hw
  have hle := hw.first (by rw [hnext]; decide)
  rw [hnext] at hle
  omega

end VmaMem

end SC7
