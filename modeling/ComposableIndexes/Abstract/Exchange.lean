import ComposableIndexes.Abstract.Table

namespace ComposableIndexes

variable {T : Type} {e e' : UnregisteredIndex T}

-- The two expressions clash with the same changes of a collection.
def SameClashes (e e' : UnregisteredIndex T) : Prop :=
  ∀ (S : Contents T) (u : Update T), u.ValidAt S → (e.Clashes S u ↔ e'.Clashes S u)

theorem SameClashes.symm (h : SameClashes e e') : SameClashes e' e := fun S u hu => (h S u hu).symm

theorem UnregisteredIndex.clashes_add_iff (e : UnregisteredIndex T) (S : Contents T) (id : Id) (v : T) :
    e.Clashes S (.add id v) ↔ e.Rejects S (.add id v) :=
  or_iff_left ((e.refines T (fun _ => True)).not_defers_add S id v)

namespace Collection

open RegisteredIndex (Obstacle)

variable {P : Id → Prop} {n : ℕ} {c c' c₁ : Collection T}

structure Swapped (e e' : UnregisteredIndex T) (n : ℕ) (c c' : Collection T) : Prop where
  table : c'.table = c.table
  exprs : ∃ before after, before.length = n ∧ c.exprs = before ++ e :: after ∧ c'.exprs = before ++ e' :: after

theorem Swapped.last (h : Swapped e e' n c c') : c'.last = c.last := congrArg Table.last h.table

theorem Swapped.store (h : Swapped e e' n c c') : c'.store = c.store := congrArg Table.store h.table

theorem Swapped.contents (h : Swapped e e' n c c') : c'.contents = c.contents := congrArg IdMap.find h.store

theorem Swapped.clash (h : Swapped e e' n c c') (hs : SameClashes e e') {S : Contents T} {u : Update T} (hu : u.ValidAt S) :
    c.Clash S u ↔ c'.Clash S u := by
  obtain ⟨before,after,_,he,he'⟩ := h.exprs
  rw [clash_iff,clash_iff,he,he']
  simp only [List.mem_append,List.mem_cons,or_and_right,exists_or,exists_eq_left,hs S u hu]

variable [JsValue T]

-- The same items, and indexes that clash with the same changes of them.
structure Corresponds (c c' : Collection T) : Prop where
  store : c'.store = c.store
  clash : ∀ S u, u.ValidAt S → (c.Clash S u ↔ c'.Clash S u)

namespace Corresponds

omit [JsValue T] in
theorem symm (h : Corresponds c c') : Corresponds c' c := ⟨h.store.symm,fun S u hu => (h.clash S u hu).symm⟩

omit [JsValue T] in
theorem contents (h : Corresponds c c') : c'.contents = c.contents := congrArg IdMap.find h.store

theorem get (h : Corresponds c c') (id : Id) : c'.get id = c.get id := by
  rw [Collection.get,Collection.get,h.store]

theorem setUpdate (h : Corresponds c c') (id : Id) (v : T) : c'.setUpdate id v = c.setUpdate id v := by
  rw [Collection.setUpdate,Collection.setUpdate,h.get]

theorem putBackClash (h : Corresponds c c') (hc : c.Consistent P) (id : Id) (post : Option T) :
    c.PutBackClash id post ↔ c'.PutBackClash id post := by
  simp only [PutBackClash,h.contents,h.setUpdate,h.clash _ _ (setUpdate_valid hc id _)]

theorem alterClash (h : Corresponds c c') (hc : c.Consistent P) (id : Id) (post : Option T) :
    c.AlterClash id post ↔ c'.AlterClash id post := by
  have herase (v : T) : Update.ValidAt (c.contents.erase id.bits) (.add id v) := c.contents.erase_self id.bits
  rw [AlterClash,AlterClash,h.get,h.contents]
  cases JsValue.truthyOption (c.get id) with
  | true => simp only [if_true,h.clash _ _ (herase _)]
  | false => exact h.putBackClash hc id post

theorem conflict (h : Corresponds c c') (hc : c.Consistent P) {call : Call T} (ha : call.Admissible P c)
    (hl : call.Addressed ∨ c'.last = c.last) : call.Conflict c ↔ call.Conflict c' := by
  cases call with
  | registerIndex e₁ => simp only [Call.Conflict,toList,h.store]
  | add v =>
    have hnext : c'.nextId = c.nextId := by
      rw [Collection.nextId,Collection.nextId,hl.resolve_left not_false]
    rw [Call.Conflict,Call.Conflict,h.contents,hnext]
    exact h.clash _ _ ha.2.2
  | set id v =>
    rw [Call.Conflict,Call.Conflict,h.contents,h.setUpdate]
    exact h.clash _ _ (setUpdate_valid hc id v)
  | delete id => exact Iff.rfl
  | alter id f =>
    rw [Call.Conflict,Call.Conflict,h.get]
    exact h.alterClash hc id _
  | adjust id f =>
    rw [Call.Conflict,Call.Conflict,h.get]
    exact h.alterClash hc id _

theorem ordinary_of_last {call : Call T} (hok : call.Ordinary c)
    (hl : call.Addressed ∨ c'.last = c.last) : call.Ordinary c' := by
  refine ⟨hok.defined,hok.unsigned,?_⟩
  have hb := hok.below
  cases call with
  | add v =>
    rw [Call.BelowTop] at hb ⊢
    rwa [hl.resolve_left not_false]
  | _ => trivial

theorem accepts (h : Corresponds c c') (hr : Reached Call.exec Call.Ordinary new c)
    (hr' : Reached Call.exec Call.Ordinary new c') {call : Call T} (hok : call.Ordinary c)
    (hl : call.Addressed ∨ c'.last = c.last) (he : call.exec c = .returned () c₁) :
    ∃ c₁', call.exec c' = .returned () c₁' := by
  have hc := ordinary_consistent hr
  have ha := (hr.invariant counter_new (fun _ _ _ => counter_step)).admissible hok
  have ha' := (hr'.invariant counter_new (fun _ _ _ => counter_step)).admissible (ordinary_of_last hok hl)
  have hnc : ¬call.Conflict c := by
    rcases Call.exec_cases (fun _ hid => hid) hc call ha with ⟨hnc,_⟩ | ⟨_,id,c₂,ht⟩
    · exact hnc
    · rw [he] at ht
      cases ht
  rcases Call.exec_cases (fun _ hid => hid) (ordinary_consistent hr') call ha' with ⟨_,c₁',he',_⟩ | ⟨hcf,_⟩
  · exact ⟨c₁',he'⟩
  · exact absurd ((h.conflict hc ha hl).mpr hcf) hnc

end Corresponds

omit [JsValue T] in
theorem Swapped.corresponds (h : Swapped e e' n c c') (hs : SameClashes e e') : Corresponds c c' :=
  ⟨h.store,fun _ _ hu => h.clash hs hu⟩

theorem table_of_exec {call : Call T} (he : call.exec c = .returned () c₁) : c₁.table = call.write c.table := by
  have hreturns : (call.exec c).Returns := ⟨_,_,he⟩
  have ht := exec_table (unhindered_of_returns hreturns)
  rwa [he] at ht

theorem registerIndex_exprs {e₁ : UnregisteredIndex T} (hr : (Call.registerIndex e₁).exec c = .returned () c₁) :
    c₁.exprs = c.exprs ++ [e₁] := by
  obtain ⟨ix,hix⟩ := registered_of_exec hr
  rcases registerIndex_cases (P := fun _ => True) (fun _ _ => trivial) e₁ c with ⟨s,log,h,_⟩ | ⟨R,id,v,_,h⟩
  · rw [hix] at h
    cases h
    simp [exprs]
  · rw [hix] at h
    cases h

def Call.registered : Call T → List (UnregisteredIndex T)
  | .registerIndex e => [e]
  | _ => []

theorem exec_exprs {call : Call T} (hr : call.exec c = .returned () c₁) : c₁.exprs = c.exprs ++ Call.registered call := by
  have hst : c₁ = (call.exec c).state := by
    rw [hr]
    rfl
  cases call with
  | registerIndex e₁ => exact registerIndex_exprs hr
  | add v =>
    rw [hst,Call.exec,Procedure.bind_pure_state,add_exprs]
    exact (List.append_nil _).symm
  | set id v =>
    rw [hst,Call.exec,set_exprs]
    exact (List.append_nil _).symm
  | delete id =>
    rw [hst,Call.exec,Procedure.bind_pure_state,delete_exprs]
    exact (List.append_nil _).symm
  | alter id f =>
    rw [hst,Call.exec,Procedure.bind_pure_state,alter_exprs]
    exact (List.append_nil _).symm
  | adjust id f =>
    rw [hst,Call.exec,adjust,alter_exprs]
    exact (List.append_nil _).symm

theorem Corresponds.step (h : Corresponds c c') (hr : Reached Call.exec Call.Ordinary new c)
    (hr' : Reached Call.exec Call.Ordinary new c') {call : Call T} (hcall : call.Addressed) (hok : call.Ordinary c)
    {c₁ : Collection T} (he : call.exec c = .returned () c₁) :
    ∃ c₁', call.exec c' = .returned () c₁' ∧ Corresponds c₁ c₁' := by
  obtain ⟨c₁',he'⟩ := h.accepts hr hr' hok (.inl hcall) he
  have ht := congrArg Table.store (table_of_exec he)
  have ht' := congrArg Table.store (table_of_exec he')
  refine ⟨c₁',he',?_,?_⟩
  · rw [Call.write_store hcall (show c'.table.store = c.table.store from h.store)] at ht'
    exact ht'.trans ht.symm
  · intro S u hu
    have hclash := h.clash S u hu
    rw [clash_iff,clash_iff] at hclash
    simp only [clash_iff,exec_exprs he,exec_exprs he',List.mem_append,or_and_right,exists_or,hclash]

theorem Corresponds.play (h : Corresponds c c') (hr : Reached Call.exec Call.Ordinary new c)
    (hr' : Reached Call.exec Call.Ordinary new c') {calls : List (Call T)} (hcalls : ∀ call ∈ calls, call.Addressed)
    (ha : Procedure.Accepted Call.exec Call.Ordinary calls c) : Procedure.Accepted Call.exec Call.Ordinary calls c' ∧
      Corresponds (Procedure.play Call.exec calls c).2 (Procedure.play Call.exec calls c').2 := by
  induction calls generalizing c c' with
  | nil => exact ⟨trivial,h⟩
  | cons call calls ih =>
    obtain ⟨hcall,hrest⟩ := List.forall_mem_cons.mp hcalls
    obtain ⟨hok,⟨_,c₁,he⟩,hacc⟩ := ha
    obtain ⟨c₁',he',h₁⟩ := h.step hr hr' hcall hok he
    have hok' : call.Ordinary c' := ordinary_of_last hok (.inl hcall)
    rw [he] at hacc
    obtain ⟨ha',hp⟩ := ih h₁ (hr.step call hok he) (hr'.step call hok' he') hrest hacc
    refine ⟨⟨hok',⟨_,_,he'⟩,?_⟩,?_⟩
    · rw [he']
      exact ha'
    · simp only [Procedure.play,he,he']
      exact hp

theorem Swapped.step (h : Swapped e e' n c c') (hs : SameClashes e e') (hr : Reached Call.exec Call.Ordinary new c)
    (hr' : Reached Call.exec Call.Ordinary new c') {call : Call T} (hok : call.Ordinary c)
    (he : call.exec c = .returned () c₁) : ∃ c₁', call.exec c' = .returned () c₁' ∧ Swapped e e' n c₁ c₁' := by
  have hco := h.corresponds hs
  obtain ⟨c₁',he'⟩ := hco.accepts hr hr' hok (.inr h.last) he
  refine ⟨c₁',he',?_,?_⟩
  · have ht' := table_of_exec he'
    rw [h.table] at ht'
    exact ht'.trans (table_of_exec he).symm
  · obtain ⟨before,after,hn,hx,hx'⟩ := h.exprs
    refine ⟨before,after ++ Call.registered call,hn,?_,?_⟩
    · rw [exec_exprs he,hx,List.append_assoc,List.cons_append]
    · rw [exec_exprs he',hx',List.append_assoc,List.cons_append]

theorem Swapped.play (h : Swapped e e' n c c') (hs : SameClashes e e') (hr : Reached Call.exec Call.Ordinary new c)
    (hr' : Reached Call.exec Call.Ordinary new c') {calls : List (Call T)}
    (ha : Procedure.Accepted Call.exec Call.Ordinary calls c) : Procedure.Accepted Call.exec Call.Ordinary calls c' ∧
      Swapped e e' n (Procedure.play Call.exec calls c).2 (Procedure.play Call.exec calls c').2 := by
  induction calls generalizing c c' with
  | nil => exact ⟨trivial,h⟩
  | cons call calls ih =>
    obtain ⟨hok,⟨_,c₁,he⟩,hrest⟩ := ha
    obtain ⟨c₁',he',h₁⟩ := h.step hs hr hr' hok he
    rw [he] at hrest
    have hok' := Corresponds.ordinary_of_last hok (.inr h.last)
    obtain ⟨ha',hp⟩ := ih h₁ (hr.step call hok he) (hr'.step call hok' he') hrest
    refine ⟨⟨hok',⟨_,_,he'⟩,?_⟩,?_⟩
    · rw [he']
      exact ha'
    · simp only [Procedure.play,he,he']
      exact hp

end Collection

end ComposableIndexes
