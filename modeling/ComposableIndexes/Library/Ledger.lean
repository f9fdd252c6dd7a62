import Mathlib.Tactic
import Mathlib.Algebra.BigOperators.Group.Finset.Basic
import Mathlib.Data.Set.Insert

universe u v w

section Absorb

variable {α : Type u} {β : Type v} {f : β → α → β}

theorem List.foldl_pull (comm : ∀ x a b, f (f x a) b = f (f x b) a) (as : List α) (x : β) (a : α) :
    as.foldl f (f x a) = f (as.foldl f x) a := by
  induction as generalizing x with
  | nil => rfl
  | cons b as ih =>
    simp only [List.foldl_cons]
    rw [comm,ih]

theorem List.foldl_absorb (comm : ∀ x a b, f (f x a) b = f (f x b) a) (idem : ∀ x a, f (f x a) a = f x a)
    (as : List α) (x : β) : as.foldl f (as.foldl f x) = as.foldl f x := by
  induction as generalizing x with
  | nil => rfl
  | cons a as ih =>
    calc (a :: as).foldl f ((a :: as).foldl f x)
        = as.foldl f (f (as.foldl f (f x a)) a) := rfl
      _ = as.foldl f (f (f (as.foldl f x) a) a) := by rw [List.foldl_pull comm as x a]
      _ = as.foldl f (as.foldl f (f x a)) := by rw [idem,List.foldl_pull comm as x a]
      _ = (a :: as).foldl f x := ih (f x a)

end Absorb

-- A page of entries for items of `α`, each of which can be taken back. Entries that are already on the page
-- need not be told apart from new ones, so taking one back may remove an older one too.
structure Ledger (α : Type u) where
  Page : Type v
  blank : Page
  add : α → Page → Page
  del : α → Page → Page
  Has : α → Page → Prop
  has_add : ∀ a x, Has a (add a x)
  has_add_of_has : ∀ {a x} b, Has a x → Has a (add b x)
  add_del : ∀ {a x}, Has a x → add a (del a x) = x
  visit_comm : ∀ a b x, del a (add a (del b (add b x))) = del b (add b (del a (add a x)))

namespace Ledger

variable {α : Type u} {β : Type v} (L : Ledger α)

def addOption : Option α → L.Page → L.Page
  | none, x => x
  | some a, x => L.add a x

def delOption : Option α → L.Page → L.Page
  | none, x => x
  | some a, x => L.del a x

def edit (before after : Option α) (x : L.Page) : L.Page := L.addOption after (L.delOption before x)

def visit (x : L.Page) (a : Option α) : L.Page := L.delOption a (L.addOption a x)

theorem add_visit (a : Option α) (x : L.Page) : L.addOption a (L.visit x a) = L.addOption a x := by
  cases a with
  | none => rfl
  | some a => exact L.add_del (L.has_add a x)

theorem visit_visit (x : L.Page) (a : Option α) : L.visit (L.visit x a) a = L.visit x a :=
  congrArg (L.delOption a) (L.add_visit a x)

theorem visit_visit_comm (x : L.Page) (a b : Option α) : L.visit (L.visit x a) b = L.visit (L.visit x b) a := by
  cases a with
  | none => rfl
  | some a =>
    cases b with
    | none => rfl
    | some b => exact L.visit_comm b a x

-- The item that is written and the page it is written on, under a list of overwritings and removals.
def rewrite (st : Option α × L.Page) (after : Option α) : Option α × L.Page := (after,L.edit st.1 after st.2)

def base (st : Option α × L.Page) : L.Page := L.delOption st.1 st.2

theorem base_rewrite (st : Option α × L.Page) (as : List (Option α)) :
    L.base (as.foldl L.rewrite st) = as.foldl L.visit (L.base st) := by
  induction as generalizing st with
  | nil => rfl
  | cons a as ih => exact ih (L.rewrite st a)

theorem rewrite_twice (st : Option α × L.Page) (as : List (Option α)) :
    as.foldl L.rewrite (as.foldl L.rewrite st) = as.foldl L.rewrite st := by
  rcases List.eq_nil_or_concat as with rfl | ⟨as,a,rfl⟩
  · rfl
  have hlast (st : Option α × L.Page) : (as ++ [a]).foldl L.rewrite st =
      (a,L.addOption a (as.foldl L.visit (L.base st))) := by
    rw [List.foldl_append,← base_rewrite]
    rfl
  rw [List.concat_eq_append,hlast,hlast]
  refine congrArg (Prod.mk a) ?_
  generalize L.base st = x
  calc L.addOption a (as.foldl L.visit (L.visit (as.foldl L.visit x) a))
      = L.addOption a (L.visit (as.foldl L.visit (as.foldl L.visit x)) a) := by
        rw [List.foldl_pull L.visit_visit_comm]
    _ = L.addOption a (as.foldl L.visit (as.foldl L.visit x)) := L.add_visit a _
    _ = L.addOption a (as.foldl L.visit x) := by
        rw [List.foldl_absorb L.visit_visit_comm L.visit_visit]

section WriteAt

variable {ι : Type w} [DecidableEq ι]

def writeAt (p : (ι → Option α) × (ι → L.Page)) (e : ι × Option α) : (ι → Option α) × (ι → L.Page) :=
  (Function.update p.1 e.1 e.2,Function.update p.2 e.1 (L.edit (p.1 e.1) e.2 (p.2 e.1)))

def entriesAt (i : ι) (es : List (ι × Option α)) : List (Option α) :=
  es.filterMap (fun e => if e.1 = i then some e.2 else none)

theorem foldl_writeAt_at (p : (ι → Option α) × (ι → L.Page)) (es : List (ι × Option α)) (i : ι) :
    ((es.foldl L.writeAt p).1 i,(es.foldl L.writeAt p).2 i) = (entriesAt i es).foldl L.rewrite (p.1 i,p.2 i) := by
  induction es generalizing p with
  | nil => rfl
  | cons e es ih =>
    rw [List.foldl_cons,ih]
    by_cases hi : e.1 = i
    · subst hi
      simp [writeAt,entriesAt,rewrite]
    · have hi' : i ≠ e.1 := Ne.symm hi
      simp [writeAt,entriesAt,hi,hi']

theorem writeAt_twice (p : (ι → Option α) × (ι → L.Page)) (es : List (ι × Option α)) :
    es.foldl L.writeAt (es.foldl L.writeAt p) = es.foldl L.writeAt p := by
  have hat (i : ι) : ((es.foldl L.writeAt (es.foldl L.writeAt p)).1 i,(es.foldl L.writeAt (es.foldl L.writeAt p)).2 i) =
      ((es.foldl L.writeAt p).1 i,(es.foldl L.writeAt p).2 i) := by
    rw [L.foldl_writeAt_at _ es i,L.foldl_writeAt_at p es i]
    exact L.rewrite_twice _ _
  exact Prod.ext (funext fun i => congrArg Prod.fst (hat i)) (funext fun i => congrArg Prod.snd (hat i))

theorem foldl_writeAt_fst (p : (ι → Option α) × (ι → L.Page)) (es : List (ι × Option α)) :
    (es.foldl L.writeAt p).1 = es.foldl (fun S e => Function.update S e.1 e.2) p.1 := by
  induction es generalizing p with
  | nil => rfl
  | cons e es ih => exact ih (L.writeAt p e)

end WriteAt

def unit (α : Type u) : Ledger.{u,v} α where
  Page := PUnit
  blank := ⟨⟩
  add _ x := x
  del _ x := x
  Has _ _ := True
  has_add _ _ := trivial
  has_add_of_has _ _ := trivial
  add_del _ := rfl
  visit_comm _ _ _ := rfl

theorem update_twice {ι : Type w} [DecidableEq ι] (S : ι → Option α) (es : List (ι × Option α)) :
    es.foldl (fun S e => Function.update S e.1 e.2) (es.foldl (fun S e => Function.update S e.1 e.2) S) =
      es.foldl (fun S e => Function.update S e.1 e.2) S := by
  have h := congrArg Prod.fst ((unit.{u,0} α).writeAt_twice (S,fun _ => ⟨⟩) es)
  rwa [foldl_writeAt_fst,foldl_writeAt_fst] at h

def keys (α : Type u) : Ledger α where
  Page := Set α
  blank := ∅
  add a X := insert a X
  del a X := X \ {a}
  Has a X := a ∈ X
  has_add a X := Set.mem_insert a X
  has_add_of_has b h := Set.mem_insert_of_mem b h
  add_del h := Set.insert_sdiff_self_of_mem h
  visit_comm a b X := by
    ext c
    simp only [Set.mem_sdiff,Set.mem_insert_iff,Set.mem_singleton_iff]
    tauto

open Classical in
noncomputable def counts (α : Type u) : Ledger α where
  Page := Multiset α
  blank := 0
  add a X := a ::ₘ X
  del a X := X.erase a
  Has a X := a ∈ X
  has_add a X := Multiset.mem_cons_self a X
  has_add_of_has _ h := Multiset.mem_cons_of_mem h
  add_del h := Multiset.cons_erase h
  visit_comm _ _ _ := by simp

def comap (f : α → Option β) (L : Ledger.{v,w} β) : Ledger α where
  Page := L.Page
  blank := L.blank
  add a x := L.addOption (f a) x
  del a x := L.delOption (f a) x
  Has a x := ∀ b, f a = some b → L.Has b x
  has_add a x b hb := by
    rw [hb]
    exact L.has_add b x
  has_add_of_has {a x} a' h b hb := by
    cases f a' with
    | none => exact h b hb
    | some b' => exact L.has_add_of_has b' (h b hb)
  add_del {a x} h := by
    cases hf : f a with
    | none => rfl
    | some b => exact L.add_del (h b hf)
  visit_comm a b x := L.visit_visit_comm x (f b) (f a)

def partition {γ : Type w} [DecidableEq γ] (f : α → γ) (L : Ledger.{u,max v w} α) : Ledger.{u,max v w} α where
  Page := γ → L.Page
  blank _ := L.blank
  add a x := Function.update x (f a) (L.add a (x (f a)))
  del a x := Function.update x (f a) (L.del a (x (f a)))
  Has a x := L.Has a (x (f a))
  has_add a x := by
    rw [Function.update_self]
    exact L.has_add a _
  has_add_of_has {a x} b h := by
    rw [Function.update_apply]
    split_ifs with he
    · rw [← he]
      exact L.has_add_of_has b h
    · exact h
  add_del {a x} h := by
    rw [Function.update_self,Function.update_idem,L.add_del h,Function.update_eq_self]
  visit_comm a b x := by
    simp only [Function.update_self,Function.update_idem]
    by_cases he : f a = f b
    · rw [he,Function.update_self,Function.update_self,Function.update_idem,Function.update_idem,L.visit_comm]
    · rw [Function.update_of_ne he,Function.update_of_ne (Ne.symm he),Function.update_comm he]

def prod (L L' : Ledger.{u,v} α) : Ledger.{u,v} α where
  Page := L.Page × L'.Page
  blank := (L.blank,L'.blank)
  add a x := (L.add a x.1,L'.add a x.2)
  del a x := (L.del a x.1,L'.del a x.2)
  Has a x := L.Has a x.1 ∧ L'.Has a x.2
  has_add a x := ⟨L.has_add a x.1,L'.has_add a x.2⟩
  has_add_of_has b h := ⟨L.has_add_of_has b h.1,L'.has_add_of_has b h.2⟩
  add_del h := Prod.ext (L.add_del h.1) (L'.add_del h.2)
  visit_comm a b x := Prod.ext (L.visit_comm a b x.1) (L'.visit_comm a b x.2)

end Ledger

-- What items leave behind for good: the marks of a set of items, whatever their order and number.
structure Trail (α : Type u) where
  Mark : Type v
  blank : Mark
  enter : α → Mark → Mark
  enter_comm : ∀ a b x, enter a (enter b x) = enter b (enter a x)
  enter_enter : ∀ a x, enter a (enter a x) = enter a x

namespace Trail

variable {α : Type u} {β : Type v} (M : Trail α)

def enterOption : Option α → M.Mark → M.Mark
  | none, x => x
  | some a, x => M.enter a x

theorem enterOption_comm (a b : Option α) (x : M.Mark) :
    M.enterOption a (M.enterOption b x) = M.enterOption b (M.enterOption a x) := by
  cases a with
  | none => rfl
  | some a =>
    cases b with
    | none => rfl
    | some b => exact M.enter_comm a b x

theorem enterOption_idem (a : Option α) (x : M.Mark) : M.enterOption a (M.enterOption a x) = M.enterOption a x := by
  cases a with
  | none => rfl
  | some a => exact M.enter_enter a x

def Entered (a : α) (x : M.Mark) : Prop := M.enter a x = x

theorem entered_enter (a : α) (x : M.Mark) : M.Entered a (M.enter a x) := M.enter_enter a x

theorem Entered.enterOption {a : α} {x : M.Mark} (h : M.Entered a x) (b : Option α) : M.Entered a (M.enterOption b x) := by
  have hc := M.enterOption_comm (some a) b x
  exact hc.trans (congrArg (M.enterOption b) h)

def unit (α : Type u) : Trail.{u,v} α where
  Mark := PUnit
  blank := ⟨⟩
  enter _ x := x
  enter_comm _ _ _ := rfl
  enter_enter _ _ := rfl

def comap (f : α → Option β) (M : Trail.{v,w} β) : Trail α where
  Mark := M.Mark
  blank := M.blank
  enter a x := M.enterOption (f a) x
  enter_comm a b x := M.enterOption_comm (f a) (f b) x
  enter_enter a x := M.enterOption_idem (f a) x

def partition {γ : Type w} [DecidableEq γ] (f : α → γ) (M : Trail.{u,max v w} α) : Trail.{u,max v w} α where
  Mark := γ → Option M.Mark
  blank _ := none
  enter a x := Function.update x (f a) (some (M.enter a ((x (f a)).getD M.blank)))
  enter_comm a b x := by
    by_cases he : f a = f b
    · rw [he,Function.update_self,Function.update_self,Function.update_idem,Function.update_idem,Option.getD_some,
        Option.getD_some,M.enter_comm]
    · rw [Function.update_of_ne he,Function.update_of_ne (Ne.symm he),Function.update_comm he]
  enter_enter a x := by
    rw [Function.update_self,Function.update_idem,Option.getD_some,M.enter_enter]

def prod (M M' : Trail.{u,v} α) : Trail.{u,v} α where
  Mark := M.Mark × M'.Mark
  blank := (M.blank,M'.blank)
  enter a x := (M.enter a x.1,M'.enter a x.2)
  enter_comm a b x := Prod.ext (M.enter_comm a b x.1) (M'.enter_comm a b x.2)
  enter_enter a x := Prod.ext (M.enter_enter a x.1) (M'.enter_enter a x.2)

end Trail

section Tally

variable {ι : Type u} {α : Type v} [Finite ι]

noncomputable def tally (V : ι → Multiset α) : Multiset α :=
  letI := Fintype.ofFinite ι
  ∑ i, V i

theorem tally_blank : tally (fun _ : ι => (0 : Multiset α)) = 0 := by
  let _ := Fintype.ofFinite ι
  exact Finset.sum_const_zero

theorem tally_rename {V V' : ι → Multiset α} (σ : Equiv.Perm ι) (h : ∀ i, V' (σ i) = V i) : tally V' = tally V := by
  let _ := Fintype.ofFinite ι
  calc tally V' = ∑ i, V' (σ i) := (Equiv.sum_comp σ V').symm
    _ = tally V := Finset.sum_congr rfl (fun i _ => h i)

theorem tally_cons [DecidableEq ι] (V : ι → Multiset α) (i : ι) (a : α) :
    tally (Function.update V i (a ::ₘ V i)) = a ::ₘ tally V := by
  let _ := Fintype.ofFinite ι
  have hV : tally V = V i + ∑ j ∈ Finset.univ.erase i, V j := (Finset.add_sum_erase _ V (Finset.mem_univ i)).symm
  calc tally (Function.update V i (a ::ₘ V i))
      = (a ::ₘ V i) + ∑ j ∈ Finset.univ.erase i, V j := by
        rw [tally,← Finset.add_sum_erase _ _ (Finset.mem_univ i),Function.update_self]
        refine congrArg _ (Finset.sum_congr rfl ?_)
        intro j hj
        rw [Function.update_of_ne (Finset.ne_of_mem_erase hj)]
    _ = a ::ₘ tally V := by rw [Multiset.cons_add,← hV]

theorem tally_erase [DecidableEq ι] [DecidableEq α] {V : ι → Multiset α} {i : ι} {a : α} (h : a ∈ V i) :
    tally V = a ::ₘ tally (Function.update V i ((V i).erase a)) := by
  rw [← tally_cons _ i a,Function.update_self,Function.update_idem,Multiset.cons_erase h,Function.update_eq_self]

end Tally
