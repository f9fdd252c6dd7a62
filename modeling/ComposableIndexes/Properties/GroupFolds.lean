import ComposableIndexes.Properties.Totals

namespace ComposableIndexes

namespace Call

variable {T : Type} [JsValue T]

def AddsSetsDeletes : Call T → Prop
  | .registerIndex _ => True
  | .add _ => True
  | .set _ _ => True
  | .delete _ => True
  | _ => False

instance : (call : Call T) → Decidable call.AddsSetsDeletes
  | .registerIndex _ | .add _ | .set _ _ | .delete _ => .isTrue trivial
  | .alter _ _ | .adjust _ _ => .isFalse not_false

structure BasicIn (V : Set T) (c : Collection T) (call : Call T) : Prop extends call.ProperIn V c where
  basic : call.AddsSetsDeletes

theorem BasicIn.properIn {V : Set T} {c : Collection T} {call : Call T} (h : call.BasicIn V c) :
    call.ProperIn {v | v ∈ V ∧ JsValue.Defined v} c := by
  refine ⟨h.toProper,?_⟩
  cases call with
  | registerIndex e => trivial
  | add v => exact ⟨h.stored,h.toProper.defined⟩
  | set id v => exact ⟨h.stored,h.toProper.defined⟩
  | delete id => trivial
  | alter id f => exact h.basic.elim
  | adjust id f => exact h.basic.elim

end Call

namespace Collection

variable {G Return : Type} [Group G] [JsValue G] {V : Set G} {result : G → Return}

-- The state of the index is the product of the stored values, taken in some order.
def ProductOfItems (c : Collection G) (state : G) : Prop := ∃ l : List G, l.Perm (c.toList.map Prod.snd) ∧ state = l.prod

theorem product_of_commuting (hV : ∀ a ∈ V, ∀ b ∈ V, JsValue.Defined a → JsValue.Defined b → a * b = b * a)
    {c : Collection G} (h : Reached Call.exec (Call.BasicIn V) new c) {s : G} {log : List (Update G)}
    (hix : (⟨.aggregate (groupIndex result),s,log⟩ : RegisteredIndex G) ∈ c.indexes) : c.ProductOfItems s := by
  have h' : Reached Call.exec (Call.ProperIn {v | v ∈ V ∧ JsValue.Defined v}) new c :=
    h.mono (fun _ _ hok => hok.properIn)
  have ha : (groupArgs result).LawfulOn {v | v ∈ V ∧ JsValue.Defined v} :=
    groupArgs_lawfulOn result (fun a ha b hb => hV a ha.1 b hb.1 ha.2 hb.2)
  have ht := fold_total ha h' hix (List.Perm.refl _)
  rw [foldl_groupArgs] at ht
  exact ⟨_,List.Perm.refl _,ht⟩

section Conjugate

variable (result) (a b : G)

-- After `add a`, `add b` and the deletion of the first item the state is `a * b * a⁻¹`.
def registered : Collection G := { (new : Collection G) with indexes := [.new (.aggregate (groupIndex result))] }

def withFirst : Collection G :=
  ⟨Id.fromLong ⟨1,true⟩,IdMap.new.set (Id.fromLong ⟨1,true⟩) a,
    [⟨.aggregate (groupIndex result),(1 * a : G),[.add (Id.fromLong ⟨1,true⟩) a]⟩]⟩

def withBoth : Collection G :=
  ⟨Id.fromLong ⟨2,true⟩,(IdMap.new.set (Id.fromLong ⟨1,true⟩) a).set (Id.fromLong ⟨2,true⟩) b,
    [⟨.aggregate (groupIndex result),(1 * a * b : G),[.add (Id.fromLong ⟨1,true⟩) a,.add (Id.fromLong ⟨2,true⟩) b]⟩]⟩

def withSecond : Collection G :=
  ⟨Id.fromLong ⟨2,true⟩,((IdMap.new.set (Id.fromLong ⟨1,true⟩) a).set (Id.fromLong ⟨2,true⟩) b).delete (Id.fromLong ⟨1,true⟩),
    [⟨.aggregate (groupIndex result),(1 * a * b * a⁻¹ : G),
      [.add (Id.fromLong ⟨1,true⟩) a,.add (Id.fromLong ⟨2,true⟩) b,.delete (Id.fromLong ⟨1,true⟩) a]⟩]⟩

variable {result} {a b}

theorem withSecond_reached (ha : a ∈ V) (hb : b ∈ V) (hda : JsValue.Defined a) (hdb : JsValue.Defined b) :
    Reached Call.exec (Call.BasicIn V) new (withSecond result a b) := by
  have h₁ : Reached Call.exec (Call.BasicIn V) new (registered result) :=
    .step (.registerIndex (.aggregate (groupIndex result))) .start ⟨⟨⟨trivial,trivial⟩,trivial⟩,trivial⟩ rfl
  have h₂ : Reached Call.exec (Call.BasicIn V) new (withFirst result a) :=
    .step (.add a) h₁ ⟨⟨⟨hda,rfl⟩,ha⟩,trivial⟩ rfl
  have hfree : (withFirst result a).contents 2 = none := by
    rw [contents,withFirst,IdMap.find_set,if_neg (by decide),IdMap.find_new]
  have h₃ : Reached Call.exec (Call.BasicIn V) new (withBoth result a b) :=
    .step (.add b) h₂ ⟨⟨⟨hdb,hfree⟩,hb⟩,trivial⟩ rfl
  refine .step (.delete (Id.fromLong ⟨1,true⟩)) h₃ ⟨⟨⟨trivial,trivial⟩,trivial⟩,trivial⟩ ?_
  have hg : (withBoth result a b).get (Id.fromLong ⟨1,true⟩) = some a := get_of_contents rfl hda
  have hd := delete_apply hg
  exact (Procedure.bind_returned (hd.trans rfl)).trans rfl

omit [JsValue G] in
theorem commute_of_productOfItems (h : (withSecond result a b).ProductOfItems (1 * a * b * a⁻¹)) : a * b = b * a := by
  obtain ⟨l,hl,hs⟩ := h
  have hone : (withSecond result a b).toList.map Prod.snd = [b] := rfl
  rw [hone,List.perm_singleton] at hl
  rw [hl,List.prod_singleton,one_mul,mul_inv_eq_iff_eq_mul] at hs
  exact hs

end Conjugate

theorem group_fold_exact_iff (result : G → Return) (V : Set G) :
    (∀ c, Reached Call.exec (Call.BasicIn V) new c → ∀ (s : G) log,
      (⟨.aggregate (groupIndex result),s,log⟩ : RegisteredIndex G) ∈ c.indexes → c.ProductOfItems s) ↔
    ∀ a ∈ V, ∀ b ∈ V, JsValue.Defined a → JsValue.Defined b → a * b = b * a := by
  constructor
  · intro h a ha b hb hda hdb
    exact commute_of_productOfItems (h _ (withSecond_reached ha hb hda hdb) _ _ (List.mem_singleton.mpr rfl))
  · intro hV c h s log hix
    exact product_of_commuting hV h hix

instance {α : Type} : JsValue (Equiv.Perm α) where
  isUndefined _ := false
  truthy _ := true
  defined_of_truthy _ _ := rfl

def swapCalls : List (Call (Equiv.Perm (Fin 3))) :=
  [.registerIndex (.aggregate (groupIndex (fun a => a))),.add (Equiv.swap 0 1),.add (Equiv.swap 1 2),
    .delete (Id.fromLong ⟨1,true⟩)]

def swapped : Collection (Equiv.Perm (Fin 3)) := (Procedure.play Call.exec swapCalls new).2

theorem swapped_state_is_no_product : Reached Call.exec Call.Proper new swapped ∧
    ∃ (s : Equiv.Perm (Fin 3)) (log : List (Update (Equiv.Perm (Fin 3)))),
      (⟨.aggregate (groupIndex (fun a => a)),s,log⟩ : RegisteredIndex (Equiv.Perm (Fin 3))) ∈ swapped.indexes ∧
      ¬swapped.ProductOfItems s := by
  refine ⟨Procedure.reached_play swapCalls .start (by decide),_,_,List.mem_singleton.mpr rfl,?_⟩
  rintro ⟨l,hl,hs⟩
  have hone : swapped.toList.map Prod.snd = [Equiv.swap 1 2] := rfl
  rw [hone,List.perm_singleton] at hl
  rw [hl,List.prod_singleton] at hs
  revert hs
  decide

end Collection

end ComposableIndexes
