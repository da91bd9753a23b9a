import MiniJava.Proofs.ClassTable.WellDeclared
/-!
# Calls that build a class table

A table in use is changed in place, call by call, and a call that fails may come to an error when it has changed something
already.  None does (`exec_steps`): each checks first and stores then, and the second step of registering the main class cannot
fail.  So a run of calls comes to the same table without those that fail (`runAll_succeeding`), and what is stored stays as it
is and where it is, whatever comes after (`keeps_runAll`).
-/
namespace MiniJava.ClassTable

/-- A call that adds something to a table. -/
inductive Call where
  | registerMain (c : Located Name)
  | register (c : Located Name) (parent : Option Name)
  | addField (c : Name) (field : Declaration)
  | addMethod (c : Name) (method : Located Name) (signature : Signature)

/-- Steps on a table that is changed in place.  Where they stop with an error, the table stays as they have left it. -/
abbrev InPlace (α : Type) : Type := ExceptT (Located SemanticError) (StateM ClassTable) α

namespace InPlace

variable {α β : Type}

/-- What the steps answer, and what they leave in the place of the table. -/
def exec (x : InPlace α) (t : ClassTable) : Semantic α × ClassTable := StateT.run (ExceptT.run x) t

theorem exec_bind (x : InPlace α) (f : α → InPlace β) (t : ClassTable) : (x >>= f).exec t =
    match x.exec t with
    | (.ok a, u) => (f a).exec u
    | (.error e, u) => (.error e, u) := by
  unfold exec
  rw [ExceptT.run_bind, StateT.run_bind]
  rcases StateT.run (ExceptT.run x) t with ⟨_ | _, _⟩ <;> rfl

theorem exec_get_bind (f : ClassTable → InPlace β) (t : ClassTable) : (get >>= f : InPlace β).exec t = (f t).exec t := rfl

theorem exec_throw (e : Located SemanticError) (t : ClassTable) : (throw e : InPlace α).exec t = (.error e, t) := rfl

theorem exec_modify (f : ClassTable → ClassTable) (t : ClassTable) : (modify f : InPlace Unit).exec t = (.ok (), f t) := rfl

def register (c : Located Name) (parent : Option Name) : InPlace Unit := do
  if (← get).contains c.val then throw ⟨.duplicateClass c.val, c.span⟩
  else modify fun t => { t with classes := t.classes.put c.val ⟨parent, .empty, .empty⟩ }

/-- The class is registered first, and becomes the main class then. -/
def registerMain (c : Located Name) : InPlace Unit := do
  register c none
  modify fun t => { t with main := some c.val }

/-- Changes the entry of `c` by `put`, unless the member is `taken` there. -/
def addMember (c : Name) (member : Located Name) (taken : ClassEntry → Bool) (put : ClassEntry → ClassEntry) :
    InPlace Unit := do
  match (← get).get? c with
  | none => throw ⟨.unresolvedName c, member.span⟩
  | some entry =>
    if taken entry then throw ⟨.duplicateMember c member.val, member.span⟩
    else modify fun t => { t with classes := t.classes.put c (put entry) }

def addField (c : Name) (field : Declaration) : InPlace Unit :=
  addMember c field.name (fun e => e.fields.contains field.name.val) fun e =>
    { e with fields := e.fields.put field.name.val field.ty.val }

def addMethod (c : Name) (method : Located Name) (signature : Signature) : InPlace Unit :=
  addMember c method (fun e => e.methods.contains method.val) fun e =>
    { e with methods := e.methods.put method.val signature }

/-- A table, if there is one, in the place of the old one, which an error leaves where it is. -/
def replacing (t : ClassTable) : Semantic ClassTable → Semantic Unit × ClassTable
  | .ok u => (.ok (), u)
  | .error e => (.error e, t)

theorem exec_register (c : Located Name) (parent : Option Name) (t : ClassTable) :
    (register c parent).exec t = replacing t (t.register c parent) := by
  unfold register ClassTable.register Table.putNew? ClassTable.contains
  rw [exec_get_bind]
  by_cases hc : t.classes.contains c.val = true
  · simp [hc, exec_throw, replacing]
  · simp [hc, exec_modify, replacing]

/-- Where registering stops, it is at its first step. -/
theorem exec_registerMain (c : Located Name) (t : ClassTable) :
    (registerMain c).exec t = replacing t (t.registerMain c) := by
  unfold registerMain ClassTable.registerMain
  rw [exec_bind, exec_register]
  cases t.register c none <;> rfl

theorem exec_addMember (c : Name) (member : Located Name) (taken : ClassEntry → Bool) (put : ClassEntry → ClassEntry)
    (t : ClassTable) : (addMember c member taken put).exec t =
      replacing t (t.addMember c member fun e => if taken e then none else some (put e)) := by
  unfold addMember ClassTable.addMember
  rw [exec_get_bind]
  cases t.get? c with
  | none => rfl
  | some e =>
    by_cases he : taken e = true
    · simp [he, exec_throw, replacing]
    · simp [he, exec_modify, replacing]

theorem exec_addField (c : Name) (field : Declaration) (t : ClassTable) :
    (addField c field).exec t = replacing t (t.addField c field) := by
  unfold addField ClassTable.addField
  rw [exec_addMember]
  congr 2
  funext e
  unfold Table.putNew?
  split <;> rfl

theorem exec_addMethod (c : Name) (method : Located Name) (signature : Signature) (t : ClassTable) :
    (addMethod c method signature).exec t = replacing t (t.addMethod c method signature) := by
  unfold addMethod ClassTable.addMethod
  rw [exec_addMember]
  congr 2
  funext e
  unfold Table.putNew?
  split <;> rfl

end InPlace

namespace Call

variable {t u : ClassTable} {call : Call}

/-- The call as an operation that answers another table. -/
def perform (t : ClassTable) : Call → Semantic ClassTable
  | registerMain c => t.registerMain c
  | register c parent => t.register c parent
  | addField c field => t.addField c field
  | addMethod c method signature => t.addMethod c method signature

def steps : Call → InPlace Unit
  | registerMain c => .registerMain c
  | register c parent => .register c parent
  | addField c field => .addField c field
  | addMethod c method signature => .addMethod c method signature

theorem exec_steps (call : Call) (t : ClassTable) : call.steps.exec t = InPlace.replacing t (call.perform t) := by
  cases call with
  | registerMain c => exact InPlace.exec_registerMain c t
  | register c parent => exact InPlace.exec_register c parent t
  | addField c field => exact InPlace.exec_addField c field t
  | addMethod c method signature => exact InPlace.exec_addMethod c method signature t

/-- **What a call has to find**: a name that is new, or a class that has no member of its own of that kind and name. -/
def Admitted (t : ClassTable) : Call → Prop
  | registerMain c | register c _ => c.val ∉ t.classes.keys
  | addField c field => ∃ e, t.get? c = some e ∧ field.name.val ∉ e.fields.keys
  | addMethod c method _ => ∃ e, t.get? c = some e ∧ method.val ∉ e.methods.keys

/-- What is wrong with a call that is not admitted. -/
def complaint (t : ClassTable) : Call → Located SemanticError
  | registerMain c | register c _ => ⟨.duplicateClass c.val, c.span⟩
  | addField c ⟨member, _⟩ | addMethod c member _ =>
    ⟨if t.contains c then .duplicateMember c member.val else .unresolvedName c, member.span⟩

/-- **What a call stores**: a new entry behind all others, or a new member behind all others of the entry. -/
inductive Stores (t u : ClassTable) : Call → Prop
  | registerMain {c : Located Name} : u.main = some c.val →
      u.classes.entries = t.classes.entries ++ [(c.val, ⟨none, .empty, .empty⟩)] → Stores t u (.registerMain c)
  | register {c : Located Name} {parent : Option Name} : u.main = t.main →
      u.classes.entries = t.classes.entries ++ [(c.val, ⟨parent, .empty, .empty⟩)] → Stores t u (.register c parent)
  | addField {c : Name} {field : Declaration} {e e' : ClassEntry} : t.get? c = some e → Replaced t u c e' →
      e'.fields.entries = e.fields.entries ++ [(field.name.val, field.ty.val)] → e'.methods = e.methods →
      Stores t u (.addField c field)
  | addMethod {c : Name} {method : Located Name} {signature : Signature} {e e' : ClassEntry} : t.get? c = some e →
      Replaced t u c e' → e'.methods.entries = e.methods.entries ++ [(method.val, signature)] → e'.fields = e.fields →
      Stores t u (.addMethod c method signature)

/-! ## One call -/

theorem register_cases (c : Located Name) (parent : Option Name) (t : ClassTable) :
    (c.val ∉ t.classes.keys ∧ ∃ u, t.register c parent = .ok u ∧ u.main = t.main ∧
      u.classes.entries = t.classes.entries ++ [(c.val, ⟨parent, .empty, .empty⟩)]) ∨
    c.val ∈ t.classes.keys ∧ t.register c parent = .error ⟨.duplicateClass c.val, c.span⟩ := by
  by_cases hc : c.val ∈ t.classes.keys
  · refine .inr ⟨hc, ?_⟩
    unfold ClassTable.register Table.putNew?
    rw [if_pos (Table.contains_iff.2 hc)]
  · have hok : ∃ u, t.register c parent = .ok u := by
      unfold ClassTable.register Table.putNew?
      rw [if_neg (mt Table.contains_iff.1 hc)]
      exact ⟨_, rfl⟩
    obtain ⟨u, hu⟩ := hok
    exact .inl ⟨hc, u, hu, (register_eq_ok.1 hu).2⟩

/-- **A member comes to a class** that is there and has none of its kind and name, `own` being the members of that kind. -/
theorem addMember_cases {β : Type} (t : ClassTable) (c : Name) (member : Located Name) (value : β)
    (own : ClassEntry → Table Name β) (update : ClassEntry → Table Name β → ClassEntry)
    (hparent : ∀ e ms, (update e ms).parent = e.parent) :
    (∃ e ms u, t.get? c = some e ∧ member.val ∉ (own e).keys ∧ ms.entries = (own e).entries ++ [(member.val, value)] ∧
      t.addMember c member (fun e => ((own e).putNew? member.val value).map (update e)) = .ok u ∧
      Replaced t u c (update e ms)) ∨
    (¬ ∃ e, t.get? c = some e ∧ member.val ∉ (own e).keys) ∧
      t.addMember c member (fun e => ((own e).putNew? member.val value).map (update e)) =
        .error ⟨if t.contains c then .duplicateMember c member.val else .unresolvedName c, member.span⟩ := by
  have hcontains : t.contains c = (t.get? c).isSome := rfl
  cases hc : t.get? c with
  | none =>
    refine .inr ⟨fun ⟨e, he, _⟩ => (by cases he), ?_⟩
    unfold addMember
    rw [hcontains, hc]
    rfl
  | some e =>
    by_cases hmember : member.val ∈ (own e).keys
    · refine .inr ⟨fun ⟨e', he', hnew⟩ => ?_, ?_⟩
      · cases he'
        exact hnew hmember
      · unfold addMember Table.putNew?
        rw [hcontains, hc]
        simp [Table.contains_iff.2 hmember]
    · obtain ⟨ms, hput⟩ := exists_putNew? hmember value
      obtain ⟨u, hu⟩ := addMember_total member (fun e => ((own e).putNew? member.val value).map (update e)) hc
        (by rw [hput]; rfl)
      obtain ⟨e', hadd, hreplaced⟩ := addMember_sound hc (fun e' h => by
        obtain ⟨ms, -, rfl⟩ := Option.map_eq_some_iff.1 h
        exact hparent e ms) hu
      obtain ⟨ms', hput', rfl⟩ := Option.map_eq_some_iff.1 hadd
      exact .inl ⟨e, ms', u, rfl, hmember, (Table.putNew?_eq_some_iff.1 hput').2, hu, hreplaced⟩

/-- **A call stores what it brings if it is admitted, and complains otherwise.** -/
theorem perform_cases (call : Call) (t : ClassTable) :
    (call.Admitted t ∧ ∃ u, call.perform t = .ok u ∧ call.Stores t u) ∨
      ¬ call.Admitted t ∧ call.perform t = .error (call.complaint t) := by
  cases call with
  | registerMain c =>
    simp only [perform, ClassTable.registerMain]
    rcases register_cases c none t with ⟨hc, u, hu, -, hentries⟩ | ⟨hc, herror⟩
    · rw [hu]
      exact .inl ⟨hc, _, rfl, .registerMain rfl hentries⟩
    · rw [herror]
      exact .inr ⟨not_not.2 hc, rfl⟩
  | register c parent =>
    rcases register_cases c parent t with ⟨hc, u, hu, hmain, hentries⟩ | ⟨hc, herror⟩
    · exact .inl ⟨hc, u, hu, .register hmain hentries⟩
    · exact .inr ⟨not_not.2 hc, herror⟩
  | addField c field =>
    rcases addMember_cases t c field.name field.ty.val ClassEntry.fields (fun e fields => { e with fields })
      (fun _ _ => rfl) with ⟨e, fields, u, hc, hnew, hentries, hu, hreplaced⟩ | ⟨hnot, herror⟩
    · exact .inl ⟨⟨e, hc, hnew⟩, u, hu, .addField hc hreplaced hentries rfl⟩
    · exact .inr ⟨hnot, herror⟩
  | addMethod c method signature =>
    rcases addMember_cases t c method signature ClassEntry.methods (fun e methods => { e with methods })
      (fun _ _ => rfl) with ⟨e, methods, u, hc, hnew, hentries, hu, hreplaced⟩ | ⟨hnot, herror⟩
    · exact .inl ⟨⟨e, hc, hnew⟩, u, hu, .addMethod hc hreplaced hentries rfl⟩
    · exact .inr ⟨hnot, herror⟩

/-- The call on a table that is changed in place: what it answers, and what is left in the place of the table. -/
def run (call : Call) (t : ClassTable) : Semantic Unit × ClassTable := call.steps.exec t

/-- **What a call does**: it stores what it brings if it is admitted, and otherwise complains and leaves the table as it
was. -/
theorem run_cases (call : Call) (t : ClassTable) :
    (call.Admitted t ∧ ∃ u, call.perform t = .ok u ∧ call.run t = (.ok (), u) ∧ call.Stores t u) ∨
      ¬ call.Admitted t ∧ call.perform t = .error (call.complaint t) ∧ call.run t = (.error (call.complaint t), t) := by
  unfold run
  rw [exec_steps]
  rcases perform_cases call t with ⟨hadmitted, u, hu, hstores⟩ | ⟨hnot, herror⟩
  · rw [hu]
    exact .inl ⟨hadmitted, u, rfl, rfl, hstores⟩
  · rw [herror]
    exact .inr ⟨hnot, rfl, rfl⟩

end Call

/-! ## What stays in a table -/

/-- **What is in `t` is in `u`**, in the same place: the classes of `t` come first, each under its parent and with its own
members first. -/
structure Keeps (t u : ClassTable) : Prop where
  classes : t.classes.keys <+: u.classes.keys
  entries : ∀ c e, t.get? c = some e → ∃ e', u.get? c = some e' ∧ e'.parent = e.parent ∧
    e.fields.entries <+: e'.fields.entries ∧ e.methods.entries <+: e'.methods.entries

namespace Keeps

variable {t u v : ClassTable}

theorem refl (t : ClassTable) : Keeps t t := ⟨List.prefix_rfl, fun _ e he => ⟨e, he, rfl, List.prefix_rfl, List.prefix_rfl⟩⟩

theorem trans (h : Keeps t u) (h' : Keeps u v) : Keeps t v := by
  refine ⟨h.classes.trans h'.classes, fun c e he => ?_⟩
  obtain ⟨e₁, he₁, hparent₁, hfields₁, hmethods₁⟩ := h.entries c e he
  obtain ⟨e₂, he₂, hparent₂, hfields₂, hmethods₂⟩ := h'.entries c e₁ he₁
  exact ⟨e₂, he₂, hparent₂.trans hparent₁, hfields₁.trans hfields₂, hmethods₁.trans hmethods₂⟩

theorem of_append {new : Name × ClassEntry} (h : u.classes.entries = t.classes.entries ++ [new]) : Keeps t u := by
  constructor
  · unfold Table.keys
    rw [h, List.map_append]
    exact List.prefix_append _ _
  · intro c e he
    have hmem : (c, e) ∈ u.classes.entries := by
      rw [h]
      exact List.mem_append_left _ (Table.get?_eq_some_iff.1 he)
    exact ⟨e, Table.get?_eq_some_iff.2 hmem, rfl, List.prefix_rfl, List.prefix_rfl⟩

theorem of_replaced {c : Name} {e e' : ClassEntry} (he : t.get? c = some e) (h : Replaced t u c e')
    (hfields : e.fields.entries <+: e'.fields.entries) (hmethods : e.methods.entries <+: e'.methods.entries) :
    Keeps t u := by
  refine ⟨h.hierarchy.keys ▸ List.prefix_rfl, fun d k hk => ?_⟩
  by_cases hd : d = c
  · subst hd
    cases he.symm.trans hk
    have hparent := h.hierarchy.parent d
    unfold parentOf at hparent
    rw [h.here, he] at hparent
    exact ⟨e', h.here, hparent, hfields, hmethods⟩
  · exact ⟨k, (h.elsewhere d hd).trans hk, rfl, List.prefix_rfl, List.prefix_rfl⟩

/-- A call that stores something stores it behind all that is there. -/
theorem of_stores {call : Call} (h : call.Stores t u) : Keeps t u := by
  cases h with
  | registerMain _ hentries => exact of_append hentries
  | register _ hentries => exact of_append hentries
  | addField he hreplaced hfields hmethods =>
    exact of_replaced he hreplaced (hfields ▸ List.prefix_append _ _) (hmethods ▸ List.prefix_rfl)
  | addMethod he hreplaced hmethods hfields =>
    exact of_replaced he hreplaced (hfields ▸ List.prefix_rfl) (hmethods ▸ List.prefix_append _ _)

theorem of_run (call : Call) (t : ClassTable) : Keeps t (call.run t).2 := by
  rcases call.run_cases t with ⟨-, u, -, hrun, hstores⟩ | ⟨-, -, hrun⟩
  · rw [hrun]
    exact of_stores hstores
  · rw [hrun]
    exact refl t

end Keeps

/-! ## Runs of calls -/

/-- What calls leave in the place of the table, one after another. -/
def runAll (t : ClassTable) (calls : List Call) : ClassTable := calls.foldl (fun t call => (call.run t).2) t

/-- The calls that do not fail. -/
def succeeding (t : ClassTable) : List Call → List Call
  | [] => []
  | call :: calls => match call.run t with
    | (.ok _, u) => call :: succeeding u calls
    | (.error _, u) => succeeding u calls

/-- The class that a call makes the main class. -/
def Call.main? : Call → Option Name
  | registerMain c => some c.val
  | _ => none

theorem runAll_cons (t : ClassTable) (call : Call) (calls : List Call) :
    runAll t (call :: calls) = runAll (call.run t).2 calls := rfl

theorem runAll_append (t : ClassTable) (before after : List Call) :
    runAll t (before ++ after) = runAll (runAll t before) after := List.foldl_append

theorem succeeding_of_ok {t u : ClassTable} {call : Call} (h : call.run t = (.ok (), u)) (calls : List Call) :
    succeeding t (call :: calls) = call :: succeeding u calls := by
  rw [succeeding, h]

theorem succeeding_of_error {t u : ClassTable} {call : Call} {e : Located SemanticError} (h : call.run t = (.error e, u))
    (calls : List Call) : succeeding t (call :: calls) = succeeding u calls := by
  rw [succeeding, h]

theorem keeps_runAll (t : ClassTable) (calls : List Call) : Keeps t (runAll t calls) := by
  induction calls generalizing t with
  | nil => exact .refl t
  | cons call calls ih => exact (Keeps.of_run call t).trans (ih _)

/-- **Calls that fail can be left out**: what is left are calls that succeed, and they come to the same table. -/
theorem runAll_succeeding (t : ClassTable) (calls : List Call) :
    runAll t (succeeding t calls) = runAll t calls ∧
      ∀ before call after, succeeding t calls = before ++ call :: after → (call.run (runAll t before)).1 = .ok () := by
  induction calls generalizing t with
  | nil => exact ⟨rfl, fun before call after h => by simp [succeeding] at h⟩
  | cons call calls ih =>
    rw [runAll_cons]
    rcases call.run_cases t with ⟨-, u, -, hrun, -⟩ | ⟨-, -, hrun⟩
    · obtain ⟨htable, hsucceed⟩ := ih u
      rw [succeeding_of_ok hrun, runAll_cons, hrun]
      refine ⟨htable, fun before other after h => ?_⟩
      cases before with
      | nil =>
        obtain ⟨rfl, -⟩ := List.cons.inj h
        exact congrArg Prod.fst hrun
      | cons first before =>
        obtain ⟨hfirst, hrest⟩ := List.cons.inj h
        rw [← hfirst, runAll_cons, hrun]
        exact hsucceed before other after hrest
    · rw [succeeding_of_error hrun, hrun]
      exact ih t

/-- The main class is the one that was made so last. -/
theorem main_runAll (t : ClassTable) (calls : List Call) :
    (runAll t calls).main = (((succeeding t calls).filterMap Call.main?).getLast?).or t.main := by
  induction calls generalizing t with
  | nil => rfl
  | cons call calls ih =>
    rw [runAll_cons, ih]
    rcases call.run_cases t with ⟨-, u, -, hrun, hstores⟩ | ⟨-, -, hrun⟩
    · rw [succeeding_of_ok hrun, hrun]
      dsimp only
      cases hstores with
      | registerMain hmain _ =>
        rw [hmain, List.filterMap_cons_some (show Call.main? (.registerMain _) = some _ from rfl), List.getLast?_cons]
        cases ((succeeding u calls).filterMap Call.main?).getLast? <;> rfl
      | register hmain _ =>
        rw [hmain, List.filterMap_cons_none rfl]
      | addField _ hreplaced _ _ =>
        rw [hreplaced.hierarchy.main, List.filterMap_cons_none rfl]
      | addMethod _ hreplaced _ _ =>
        rw [hreplaced.hierarchy.main, List.filterMap_cons_none rfl]
    · rw [succeeding_of_error hrun, hrun]

/-- **A failing call changes nothing.**  In every run of calls on a table that is empty at first, each call succeeds just if
it registers a new name or adds a member to a registered class that has none of that kind and name of its own, and stores
what it brings then; otherwise it complains and the table is what it was.  So the run comes to the table that the calls
that succeed come to alone, all of them succeeding again.  What is in the table at any time stays there unaltered, its order
included, whatever calls come later.  The main class is that of the last registration of one that succeeds. -/
theorem failed_calls_change_nothing (calls : List Call) :
    (∀ before call after, calls = before ++ call :: after →
      (call.Admitted (runAll .empty before) ∧ ∃ u, call.perform (runAll .empty before) = .ok u ∧
        call.run (runAll .empty before) = (.ok (), u) ∧ call.Stores (runAll .empty before) u) ∨
      (¬ call.Admitted (runAll .empty before) ∧
        call.perform (runAll .empty before) = .error (call.complaint (runAll .empty before)) ∧
        call.run (runAll .empty before) = (.error (call.complaint (runAll .empty before)), runAll .empty before))) ∧
    runAll .empty (succeeding .empty calls) = runAll .empty calls ∧
    (∀ before call after, succeeding .empty calls = before ++ call :: after →
      (call.run (runAll .empty before)).1 = .ok ()) ∧
    (∀ before after, calls = before ++ after → Keeps (runAll .empty before) (runAll .empty calls)) ∧
    (runAll .empty calls).main = ((succeeding .empty calls).filterMap Call.main?).getLast? := by
  obtain ⟨htable, hsucceed⟩ := runAll_succeeding .empty calls
  refine ⟨fun before call after _ => call.run_cases _, htable, hsucceed, ?_, ?_⟩
  · rintro before after rfl
    rw [runAll_append]
    exact keeps_runAll _ after
  · rw [main_runAll]
    exact Option.or_none

end MiniJava.ClassTable
