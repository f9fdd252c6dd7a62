import ComposableIndexes.Abstract.Folding

namespace ComposableIndexes

-- What a fold is told of an update: the id does not reach it.
inductive Change (T : Type) where
  | added (value : T)
  | updated (oldValue newValue : T)
  | deleted (oldValue : T)
  deriving DecidableEq

def Update.change {T : Type} : Update T → Change T
  | .add _ value => .added value
  | .update _ oldValue newValue => .updated oldValue newValue
  | .delete _ oldValue => .deleted oldValue

namespace Change

variable {A B : Type}

def through (f : A → Option B) : Change A → Option (Change B)
  | .added value => (f value).map added
  | .updated oldValue newValue =>
      match f oldValue, f newValue with
      | none, none => none
      | none, some new => some (.added new)
      | some old, none => some (.deleted old)
      | some old, some new => some (.updated old new)
  | .deleted oldValue => (f oldValue).map deleted

theorem through_change (f : A → Option B) (u : Update A) :
    u.change.through f = (filterMapUpdate f u).map Update.change := by
  cases u with
  | add id v => cases hv : f v <;> simp [Update.change,through,filterMapUpdate,hv]
  | update id v w => cases hv : f v <;> cases hw : f w <;> simp [Update.change,through,filterMapUpdate,hv,hw]
  | delete id v => cases hv : f v <;> simp [Update.change,through,filterMapUpdate,hv]

end Change

namespace FoldArgs

variable {I S W In : Type}

def take (args : FoldArgs I S W) : Change I → S → S
  | .added value, state => args.add state value
  | .updated oldValue newValue, state => args.update state oldValue newValue
  | .deleted oldValue, state => args.delete state oldValue

def fed (args : FoldArgs I S W) (changes : List (Change I)) : S :=
  changes.foldl (fun state change => args.take change state) args.init

theorem stepThrough_eq (args : FoldArgs I S W) (pre : In → Option I) (u : Update In) (state : S) :
    args.stepThrough pre u state = (u.change.through pre).elim state (fun change => args.take change state) := by
  rw [stepThrough,Change.through_change]
  cases filterMapUpdate pre u with
  | none => rfl
  | some w => cases w <;> rfl

theorem fed_through (args : FoldArgs I S W) (pre : In → Option I) (heard : List (Change In)) (u : Update In) :
    args.fed ((heard ++ [u.change]).filterMap (Change.through pre)) =
      args.stepThrough pre u (args.fed (heard.filterMap (Change.through pre))) := by
  rw [stepThrough_eq,List.filterMap_append,fed,List.foldl_append]
  cases hu : u.change.through pre <;> simp [hu,fed]

-- The fold that writes down what it is told.
def journal (T : Type) : FoldArgs T (List (Change T)) (List (Change T)) where
  init := []
  add := fun heard value => heard ++ [.added value]
  update := fun heard oldValue newValue => heard ++ [.updated oldValue newValue]
  delete := fun heard oldValue => heard ++ [.deleted oldValue]
  result := fun heard => heard

theorem journal_take (change : Change I) (heard : List (Change I)) : (journal I).take change heard = heard ++ [change] := by
  cases change <;> rfl

theorem journal_step (u : Update I) (heard : List (Change I)) : (journal I).step u heard = heard ++ [u.change] := by
  cases u <;> rfl

theorem journal_fed (changes : List (Change I)) : (journal I).fed changes = changes := by
  have hrun (heard : List (Change I)) :
      changes.foldl (fun state change => (journal I).take change state) heard = heard ++ changes := by
    induction changes generalizing heard with
    | nil => exact (List.append_nil heard).symm
    | cons change rest ih => rw [List.foldl_cons,journal_take,ih,List.append_assoc,List.singleton_append]
  exact (hrun []).trans (List.nil_append changes)

end FoldArgs

section Registration

variable {T S : Type} {e : UnregisteredIndex T} {core : e.State → S} {init : S} {step : Update T → S → S}

theorem receiveAll_of_folds (h : Folds (e.index T) core init step) (ctx : IndexContext T) (items : List (Id × T))
    (s : e.State) (log : List (Update T)) : (RegisteredIndex.receiveAll ctx items ⟨e,s,log⟩).Returns := by
  induction items generalizing s log with
  | nil => exact ⟨_,_,rfl⟩
  | cons p rest ih =>
    obtain ⟨id,elem⟩ := p
    obtain ⟨s',hd,_⟩ := h.deliver ctx (.add id elem) s
    simp only [RegisteredIndex.receiveAll,Procedure.bind_apply,RegisteredIndex.receive,hd]
    exact ih s' (log ++ [.add id elem])

variable [JsValue T]

theorem registerIndex_of_folds (h : Folds (e.index T) core init step) (c : Collection T) :
    (Collection.registerIndex e c).Returns := by
  obtain ⟨_,ix,hr⟩ := receiveAll_of_folds h c.context c.store.entries (e.index T).create []
  simp only [Collection.registerIndex,RegisteredIndex.new,hr]
  exact ⟨_,_,rfl⟩

end Registration

namespace Collection

variable {T I S W : Type} [JsValue T] {args : FoldArgs I S W} {pre : T → Option I} {e : UnregisteredIndex T}
  {core : e.State → S}

-- The state that a run leaves in an index that it registers first.
def Holding (c : Collection T) (calls : List (Call T)) (e : UnregisteredIndex T) (s : e.State)
    (before after : List (RegisteredIndex T)) (log : List (Update T)) : Prop :=
  before.length = c.indexes.length ∧
    (Procedure.play Call.exec (.registerIndex e :: calls) c).2.indexes = before ++ ⟨e,s,log⟩ :: after

def Hears (c : Collection T) (calls : List (Call T)) (heard : List (Change T)) : Prop :=
  ∃ before after log, c.Holding calls (.foldIndex (FoldArgs.journal T)) heard before after log

theorem Holding.unique {c : Collection T} {calls : List (Call T)} {s s' : e.State}
    {before before' after after' : List (RegisteredIndex T)} {log log' : List (Update T)}
    (h : c.Holding calls e s before after log) (h' : c.Holding calls e s' before' after' log') :
    s = s' ∧ before = before' ∧ after = after' ∧ log = log' := by
  obtain ⟨hb,ha⟩ := List.append_inj (h.2.symm.trans h'.2) (h.1.trans h'.1.symm)
  cases ha
  exact ⟨rfl,hb,rfl,rfl⟩

-- Whatever a run does, and whichever of its calls throw, a fold behind `pre` ends as the fold of what the journal in
-- its place has written down.
theorem play_journal (hf : Folds (e.index T) core args.init (args.stepThrough pre)) (c : Collection T)
    (calls : List (Call T)) {heard : List (Change T)} {before after : List (RegisteredIndex T)} {log : List (Update T)}
    (hj : c.Holding calls (.foldIndex (FoldArgs.journal T)) heard before after log) :
    (Procedure.play Call.exec (.registerIndex e :: calls) c).1 =
      (Procedure.play Call.exec (.registerIndex (.foldIndex (FoldArgs.journal T)) :: calls) c).1 ∧
    ∃ s, c.Holding calls e s before after log ∧ core s = args.fed (heard.filterMap (Change.through pre)) := by
  let R (state : S) (heard : List (Change T)) : Prop := state = args.fed (heard.filterMap (Change.through pre))
  have hstep : ∀ u state heard, R state heard → R (args.stepThrough pre u state) ((FoldArgs.journal T).step u heard) := by
    rintro u _ heard rfl
    rw [FoldArgs.journal_step]
    exact (args.fed_through pre heard u).symm
  let Q (s : e.State) (heard : (UnregisteredIndex.foldIndex (FoldArgs.journal T)).State) : Prop := R (core s) heard
  have hb : Bisim Q (e.index T) ((UnregisteredIndex.foldIndex (FoldArgs.journal T)).index T) :=
    hf.bisim (FoldArgs.journal T).folds (R := R) rfl hstep
  obtain ⟨hx,ha⟩ := play_registered hb (registerIndex_of_folds hf c) calls
  obtain ⟨before',s,heard',log',after',hn,hl,hl',hs⟩ := ha.indexes.split
  have hj' : c.Holding calls (.foldIndex (FoldArgs.journal T)) heard' before' after' log' := ⟨hn,hl'⟩
  obtain ⟨hh,rfl,rfl,rfl⟩ := hj.unique hj'
  refine ⟨hx,s,⟨hn,hl⟩,?_⟩
  rw [hh]
  exact hs

theorem exists_hears (c : Collection T) (calls : List (Call T)) : ∃ heard, c.Hears calls heard := by
  let e : UnregisteredIndex T := .foldIndex (FoldArgs.journal T)
  have hf : Folds (e.index T) id [] (FoldArgs.journal T).step := (FoldArgs.journal T).folds
  have hb : Bisim Eq (e.index T) (e.index T) := .of_eq rfl (fun _ _ => rfl)
  obtain ⟨_,ha⟩ := play_registered hb (registerIndex_of_folds hf c) calls
  obtain ⟨before,s,_,log,after,hn,hl,_⟩ := ha.indexes.split
  exact ⟨s,before,after,log,hn,hl⟩

end Collection

end ComposableIndexes
