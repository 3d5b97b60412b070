import Mathlib.Data.List.Nodup
import Mathlib.Logic.Function.Basic
import Mathlib.Tactic.Common

/-!
# Doubly linked lists threaded through a store

A node of the list is its address, and `read a` is the pair of links stored at `a`.
`LinkedSegment read p h l q t` says that `h` is the first node of the segment `l` (or already
the node `t` behind it), that the node before it is `p`, and that its last node is `q`.  A
segment is concatenated and split freely, so that the two edits of a list, inserting a node at
the head and removing a node, are local.
-/

namespace Minyar

/-- The two links stored in a node. -/
structure Link (α : Type*) where
  /-- The node before. -/
  previous : α
  /-- The node behind. -/
  next : α

variable {α : Type*} {read read' : α → Link α} {null : α}

/-- The nodes `l` are linked both ways, from the head `h` behind `p` to the node `t` behind the
last node `q`. -/
def LinkedSegment (read : α → Link α) : α → α → List α → α → α → Prop
  | p, h, [], q, t => h = t ∧ q = p
  | p, h, a :: l, q, t => h = a ∧ (read a).previous = p ∧ LinkedSegment read a (read a).next l q t

/-- A doubly linked list: a segment between the null links that avoids the null node. -/
structure LinkedList (read : α → Link α) (null head : α) (l : List α) : Prop where
  /-- No node is listed twice. -/
  nodup : l.Nodup
  /-- The null link is not a node. -/
  null_notMem : null ∉ l
  /-- The nodes are linked both ways, with null links at both ends. -/
  segment : ∃ last, LinkedSegment read null head l last null

namespace LinkedSegment

/-- A segment depends on the links of its nodes alone. -/
theorem congr {l : List α} (hr : ∀ a ∈ l, read a = read' a) :
    ∀ {p h q t : α}, LinkedSegment read p h l q t → LinkedSegment read' p h l q t := by
  induction l with
  | nil => exact fun h => h
  | cons a l ih =>
    rintro p h q t ⟨rfl, hp, hs⟩
    have ha := hr h List.mem_cons_self
    refine ⟨rfl, ha ▸ hp, ?_⟩
    rw [← ha]
    exact ih (fun b hb => hr b (List.mem_cons_of_mem _ hb)) hs

/-- Segments are concatenated and split at a seam. -/
theorem append_iff {l₁ l₂ : List α} :
    ∀ {p h q t : α}, LinkedSegment read p h (l₁ ++ l₂) q t ↔
      ∃ m x, LinkedSegment read p h l₁ m x ∧ LinkedSegment read m x l₂ q t := by
  induction l₁ with
  | nil =>
    intro p h q t
    refine ⟨fun hs => ⟨p, h, ⟨rfl, rfl⟩, hs⟩, ?_⟩
    rintro ⟨m, x, ⟨rfl, rfl⟩, hs⟩
    exact hs
  | cons a l₁ ih =>
    intro p h q t
    constructor
    · rintro ⟨ha, hp, hs⟩
      obtain ⟨m, x, hs₁, hs₂⟩ := ih.mp hs
      exact ⟨m, x, ⟨ha, hp, hs₁⟩, hs₂⟩
    · rintro ⟨m, x, ⟨ha, hp, hs₁⟩, hs₂⟩
      exact ⟨ha, hp, ih.mpr ⟨m, x, hs₁, hs₂⟩⟩

/-- Either a segment is empty or its last node is one of its nodes. -/
theorem last_mem {l : List α} :
    ∀ {p h q t : α}, LinkedSegment read p h l q t → (l = [] ∧ q = p) ∨ q ∈ l := by
  induction l with
  | nil => exact fun hs => Or.inl ⟨rfl, hs.2⟩
  | cons a l ih =>
    rintro p h q t ⟨rfl, -, hs⟩
    rcases ih hs with ⟨rfl, rfl⟩ | hq
    · exact Or.inr List.mem_cons_self
    · exact Or.inr (List.mem_cons_of_mem _ hq)

end LinkedSegment

namespace LinkedList


variable {head a : α} {l : List α}

/-- A list depends on the links of its nodes alone. -/
theorem congr (h : LinkedList read null head l) (hr : ∀ a ∈ l, read a = read' a) :
    LinkedList read' null head l := by
  obtain ⟨last, hs⟩ := h.segment
  exact ⟨h.nodup, h.null_notMem, last, hs.congr hr⟩

/-- The empty list has the null head. -/
theorem nil (read : α → Link α) (null : α) : LinkedList read null null [] :=
  ⟨List.nodup_nil, List.not_mem_nil, null, rfl, rfl⟩

/-- The head of a list is null exactly when the list is empty. -/
theorem head_eq_null_iff (h : LinkedList read null head l) : head = null ↔ l = [] := by
  obtain ⟨last, hs⟩ := h.segment
  cases l with
  | nil => simpa using hs.1
  | cons b l =>
    obtain ⟨rfl, -⟩ := hs
    refine iff_of_false (fun he => h.null_notMem ?_) (List.cons_ne_nil _ _)
    rw [← he]
    exact List.mem_cons_self

/-- The head of a nonempty list is one of its nodes. -/
theorem head_mem (h : LinkedList read null head l) (hne : head ≠ null) : head ∈ l := by
  obtain ⟨last, hs⟩ := h.segment
  cases l with
  | nil => exact absurd hs.1 hne
  | cons b l =>
    obtain ⟨rfl, -⟩ := hs
    exact List.mem_cons_self

/-- The links of a node are null or nodes of the same list. -/
theorem link_mem (h : LinkedList read null head l) (ha : a ∈ l) :
    ((read a).previous = null ∨ (read a).previous ∈ l) ∧
      ((read a).next = null ∨ (read a).next ∈ l) := by
  obtain ⟨last, hs⟩ := h.segment
  obtain ⟨l₁, l₂, rfl⟩ := List.append_of_mem ha
  obtain ⟨m, x, hs₁, rfl, hm, hs₂⟩ := LinkedSegment.append_iff.mp hs
  refine ⟨?_, ?_⟩
  · rcases hs₁.last_mem with ⟨-, rfl⟩ | hm'
    · exact Or.inl hm
    · exact Or.inr (hm ▸ List.mem_append_left _ hm')
  · cases l₂ with
    | nil => exact Or.inl hs₂.1
    | cons b l₂ => exact Or.inr (by simp [hs₂.1])

end LinkedList

section Edits

variable [DecidableEq α]

namespace LinkedSegment

/-- Redirecting the last node of a segment moves the node behind it; the head moves with it when
the segment is empty. -/
theorem redirect_next {l : List α} {q t t' : α} :
    ∀ {p h : α}, l.Nodup → LinkedSegment read p h l q t →
      (∀ a ∈ l, read' a = ⟨(read a).previous, if a = q then t' else (read a).next⟩) →
      LinkedSegment read' p (if l = [] then t' else h) l q t' := by
  induction l with
  | nil =>
    rintro p h - ⟨-, hq⟩ -
    exact ⟨if_pos rfl, hq⟩
  | cons a l ih =>
    rintro p h hnd ⟨rfl, hp, hs⟩ hr
    obtain ⟨hmem, hnd⟩ := List.nodup_cons.mp hnd
    have ha := hr h List.mem_cons_self
    have hl := ih hnd hs fun b hb => hr b (List.mem_cons_of_mem _ hb)
    refine ⟨if_neg (List.cons_ne_nil _ _), by rw [ha, hp], ?_⟩
    rcases last_mem hs with ⟨rfl, rfl⟩ | hq
    · rw [ha]
      exact ⟨if_pos rfl, rfl⟩
    · have hne : h ≠ q := fun he => hmem (he ▸ hq)
      rw [if_neg (List.ne_nil_of_mem hq)] at hl
      simpa only [ha, if_neg hne] using hl

/-- Redirecting the first node of a segment moves the node before it; the last node moves with it
when the segment is empty. -/
theorem redirect_previous {l : List α} {p p' h q t : α} (hnd : l.Nodup)
    (hs : LinkedSegment read p h l q t)
    (hr : ∀ a ∈ l, read' a = ⟨if a = h then p' else (read a).previous, (read a).next⟩) :
    LinkedSegment read' p' h l (if l = [] then p' else q) t := by
  cases l with
  | nil => exact ⟨hs.1, if_pos rfl⟩
  | cons a l =>
    obtain ⟨rfl, -, hs⟩ := hs
    obtain ⟨hmem, -⟩ := List.nodup_cons.mp hnd
    have hl : ∀ b ∈ l, read b = read' b := by
      intro b hb
      have hne : b ≠ h := fun he => hmem (he ▸ hb)
      rw [hr b (List.mem_cons_of_mem _ hb), if_neg hne]
    have ha := hr h List.mem_cons_self
    rw [if_pos rfl] at ha
    refine ⟨rfl, by rw [ha], ?_⟩
    rw [if_neg (List.cons_ne_nil _ _), ha]
    exact hs.congr hl

end LinkedSegment

/-- The links after the node `a` is written in front of `head`. -/
def linkInsert (read : α → Link α) (null a head : α) : α → Link α :=
  let read := Function.update read a ⟨null, head⟩
  if head = null then read else Function.update read head ⟨a, (read head).next⟩

/-- The links after the neighbours of the node `a` are linked past it. -/
def linkRemove (read : α → Link α) (null a : α) : α → Link α :=
  let value := read a
  let read := if value.previous = null then read
    else Function.update read value.previous ⟨(read value.previous).previous, value.next⟩
  if value.next = null then read
  else Function.update read value.next ⟨value.previous, (read value.next).next⟩

/-- A node that is neither inserted nor the old head keeps its links. -/
theorem linkInsert_of_ne {a head b : α} (ha : b ≠ a) (hh : b ≠ head) :
    linkInsert read null a head b = read b := by
  unfold linkInsert
  split <;> simp [ha, hh]

/-- The links of a node after its possible neighbour `a` is removed. -/
theorem linkRemove_eq {a b : α} (hb : b ≠ null) :
    linkRemove read null a b =
      ⟨if b = (read a).next then (read a).previous else (read b).previous,
        if b = (read a).previous then (read a).next else (read b).next⟩ := by
  unfold linkRemove
  by_cases hn : (read a).next = null <;> by_cases hp : (read a).previous = null <;>
    by_cases hbn : b = (read a).next <;> by_cases hbp : b = (read a).previous <;>
    simp_all [Function.update_apply]

namespace LinkedList

variable {head a : α} {l : List α}

/-- Inserting a new node in front of a list puts it first. -/
theorem insert (h : LinkedList read null head l) (ha : a ∉ l) (hnull : a ≠ null) :
    LinkedList (linkInsert read null a head) null a (a :: l) := by
  obtain ⟨last, hs⟩ := h.segment
  have hself : linkInsert read null a head a = ⟨null, head⟩ := by
    unfold linkInsert
    by_cases hh : head = null
    · simp [hh]
    · have hne : a ≠ head := fun he => ha (he ▸ h.head_mem hh)
      simp [hh, hne]
  have hothers : ∀ b ∈ l, linkInsert read null a head b =
      ⟨if b = head then a else (read b).previous, (read b).next⟩ := by
    intro b hb
    have hba : b ≠ a := fun he => ha (he ▸ hb)
    by_cases hh : b = head
    · have hnn : head ≠ null := fun he => h.null_notMem (he ▸ hh ▸ hb)
      subst hh
      simp [linkInsert, hnn, hba]
    · rw [linkInsert_of_ne hba hh, if_neg hh]
  refine ⟨List.nodup_cons.mpr ⟨ha, h.nodup⟩, ?_, if l = [] then a else last, rfl, by rw [hself], ?_⟩
  · rw [List.mem_cons, not_or]
    exact ⟨hnull.symm, h.null_notMem⟩
  · rw [hself]
    exact hs.redirect_previous h.nodup hothers

/-- Linking the neighbours of a node past it removes the node; the head moves on when the node was
the first one. -/
theorem remove (h : LinkedList read null head l) (ha : a ∈ l) :
    LinkedList (linkRemove read null a) null
      (if (read a).previous = null then (read a).next else head) (l.erase a) := by
  obtain ⟨last, hs⟩ := h.segment
  obtain ⟨l₁, l₂, rfl⟩ := List.append_of_mem ha
  have hnn : ∀ b ∈ l₁ ++ a :: l₂, b ≠ null := fun b hb he => h.null_notMem (he ▸ hb)
  obtain ⟨hnd₁, hnd, hdis⟩ := List.nodup_append.mp h.nodup
  obtain ⟨ha₂, hnd₂⟩ := List.nodup_cons.mp hnd
  have ha₁ : a ∉ l₁ := fun hb => hdis a hb a List.mem_cons_self rfl
  have herase : (l₁ ++ a :: l₂).erase a = l₁ ++ l₂ := by
    rw [List.erase_append_right _ ha₁, List.erase_cons_head]
  obtain ⟨m, x, hs₁, rfl, rfl, hs₂⟩ := LinkedSegment.append_iff.mp hs
  have hm : ∀ b ∈ l₂, b ≠ (read x).previous := by
    rintro b hb rfl
    rcases hs₁.last_mem with ⟨-, he⟩ | hmem
    · exact hnn _ (by simp [hb]) he
    · exact hdis _ hmem _ (List.mem_cons_of_mem _ hb) rfl
  have hx : ∀ b ∈ l₁, b ≠ (read x).next := by
    rintro b hb rfl
    cases l₂ with
    | nil => exact hnn _ (by simp [hb]) hs₂.1
    | cons c l₂ => exact hdis _ hb c (by simp) hs₂.1
  have hprev : (read x).previous = null ↔ l₁ = [] := by
    constructor
    · intro he
      rcases hs₁.last_mem with ⟨hl, -⟩ | hmem
      · exact hl
      · exact absurd he (hnn _ (List.mem_append_left _ hmem))
    · rintro rfl
      exact hs₁.2
  have h₁ : LinkedSegment (linkRemove read null x) null
      (if l₁ = [] then (read x).next else head) l₁ (read x).previous (read x).next :=
    hs₁.redirect_next hnd₁ fun b hb => by
      rw [linkRemove_eq (hnn b (List.mem_append_left _ hb)), if_neg (hx b hb)]
  have h₂ : LinkedSegment (linkRemove read null x) (read x).previous (read x).next l₂
      (if l₂ = [] then (read x).previous else last) null :=
    hs₂.redirect_previous hnd₂ fun b hb => by
      rw [linkRemove_eq (hnn b (by simp [hb])), if_neg (hm b hb)]
  have hsub : (l₁ ++ l₂).Sublist (l₁ ++ x :: l₂) :=
    (List.Sublist.refl l₁).append (List.sublist_cons_self x l₂)
  rw [herase, if_congr hprev rfl rfl]
  exact ⟨h.nodup.sublist hsub, fun hmem => h.null_notMem (hsub.subset hmem), _,
    LinkedSegment.append_iff.mpr ⟨_, _, h₁, h₂⟩⟩

end LinkedList

end Edits

end Minyar
