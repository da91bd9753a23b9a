import MiniJava.Proofs.Assembly.Gathering
import MiniJava.Proofs.CUnit.Lowering
/-!
# The fields that code reads and writes

Both kinds of code read and write the fields that the tree does, in the order of the listing: the machine under the class
that the code belongs to, with the type that the field was found to have (`Frame.lowerBody_accesses`), and C by the name
alone (`accesses_of_defines`).
-/
namespace MiniJava

/-! ## In a tree -/

/-- The field that a marked variable is, with its type. -/
def Variable.field? (x : Variable) : Option (Name × Ty) :=
  match x.ty, x.home with
  | some ty, some .object => some (x.name.val, ty)
  | _, _ => none

/-- A use of a variable is gathered as the field that it is, if it is one. -/
def Gather.fields : Gather (Name × Ty) := ⟨fun x => x.field?.toList, fun _ _ => []⟩

/-- The fields that an expression reads, from left to right. -/
def Expr.fields (e : Expr) : List (Name × Ty) := e.gather .fields

def Expr.fieldsAll (es : List Expr) : List (Name × Ty) := gatherAll .fields es

/-- The fields that a statement reads and writes, in the order of the listing. -/
def Stmt.fields (s : Stmt) : List (Name × Ty) := s.gather .fields

def Stmt.fieldsAll (ss : List Stmt) : List (Name × Ty) := gatherAll .fields ss

def Method.fields (m : Method) : List (Name × Ty) := m.gather .fields

theorem Expr.fields_call (m : Mark) (r : Expr) (f : Located Name) (es : List Expr) (res : Option Resolution) :
    (Expr.call m r f es res).fields = r.fields ++ fieldsAll es := by
  cases res <;> exact List.append_nil _

namespace Scope

variable {sc : Scope}

/-- A variable is marked as a field just if its name stands for one. -/
theorem MarkedVariable.mem_field? {x : Variable} {ty ty' : Ty} {home : Home} {f : Name} (h : sc.MarkedVariable x ty home)
    (hf : (f, ty') ∈ x.field?.toList) : sc.Finds f ty' .object := by
  obtain ⟨hfinds⟩ := h
  cases home with
  | method => cases hf
  | object =>
    cases List.mem_singleton.1 hf
    exact hfinds

mutual

/-- **What an expression reads as a field is one**: no variable of the method has the name, and the type is that of the
nearest field. -/
theorem Marked.finds_fields {f : Name} {ty' : Ty} : ∀ {e : Expr} {ty : Ty}, sc.Marked e ty → (f, ty') ∈ e.fields →
    sc.Finds f ty' .object
  | .literal _ _, _, _, hf | .bool _ _, _, _, hf | .self _, _, _, hf | .newObject _ _, _, _, hf => by cases hf
  | .read _ x, _, .read hx, hf => hx.mem_field? hf
  | .binary _ l _ r, _, .binary hl hr, hf => (List.mem_append.1 hf).elim hl.finds_fields hr.finds_fields
  | .not _ e, _, .not he, hf | .length _ e, _, .length he, hf | .newArray _ e, _, .newArray he, hf => he.finds_fields hf
  | .index _ a i, _, .index ha hi, hf => (List.mem_append.1 hf).elim ha.finds_fields hi.finds_fields
  | .call _ r _ es _, _, .call hr _ hes _, hf => by
    rw [Expr.fields_call] at hf
    exact (List.mem_append.1 hf).elim hr.finds_fields (finds_fieldsAll hes)

theorem finds_fieldsAll {f : Name} {ty' : Ty} : ∀ {es : List Expr} {tys : List Ty}, List.Forall₂ sc.Marked es tys →
    (f, ty') ∈ Expr.fieldsAll es → sc.Finds f ty' .object
  | [], _, _, hf => by cases hf
  | _ :: _, _, .cons he hes, hf => (List.mem_append.1 hf).elim he.finds_fields (finds_fieldsAll hes)

end

mutual

theorem MarkedStmt.finds_fields {f : Name} {ty' : Ty} : ∀ {s : Stmt}, sc.MarkedStmt s → (f, ty') ∈ s.fields →
    sc.Finds f ty' .object
  | .block _, .block hb, hf => finds_stmtFieldsAll hb hf
  | .ite _ _ _, .ite hc hy hn, hf => by
    rcases List.mem_append.1 hf with hf | hf
    · exact (List.mem_append.1 hf).elim hc.finds_fields hn.finds_fields
    · exact hy.finds_fields hf
  | .loop _ _, .loop hc hb, hf => (List.mem_append.1 hf).elim hc.finds_fields hb.finds_fields
  | .print _, .print he, hf => he.finds_fields hf
  | .assign _ _, .assign hx he, hf => (List.mem_append.1 hf).elim he.finds_fields hx.mem_field?
  | .store _ _ _, .store hx hi he, hf => by
    rcases List.mem_append.1 hf with hf | hf
    · exact (List.mem_append.1 hf).elim hx.mem_field? hi.finds_fields
    · exact he.finds_fields hf

theorem finds_stmtFieldsAll {f : Name} {ty' : Ty} : ∀ {ss : List Stmt}, (∀ s ∈ ss, sc.MarkedStmt s) →
    (f, ty') ∈ Stmt.fieldsAll ss → sc.Finds f ty' .object
  | [], _, hf => by cases hf
  | _ :: _, hss, hf => by
    obtain ⟨hs, hss⟩ := List.forall_mem_cons.1 hss
    exact (List.mem_append.1 hf).elim hs.finds_fields (finds_stmtFieldsAll hss)

end

end Scope

namespace Method.MarkedIn

variable {t : ClassTable} {c : Name} {m : Method} {f : Name} {ty : Ty}

theorem finds_fields (h : m.MarkedIn t c) (hf : (f, ty) ∈ m.fields) : (m.scope t c).Finds f ty .object := by
  obtain ⟨_, hresult, -⟩ := h.result
  exact (List.mem_append.1 hf).elim (Scope.finds_stmtFieldsAll h.body) hresult.finds_fields

/-- **A field that a method of the class `c` uses is the nearest one from `c` upwards.** -/
theorem resolveField (h : m.MarkedIn t c) (hf : (f, ty) ∈ m.fields) : t.resolveField c f = some ty := by
  cases h.finds_fields hf with
  | object _ hcurrent hr =>
    cases hcurrent
    exact hr

end Method.MarkedIn

/-! ## In a listing -/

namespace Assembly

/-- The field that an instruction reads or writes, as the instruction names it: by a class, a name and a type. -/
def Instr.field? : Instr → Option (Name × Name × Storage)
  | getfield c f s | putfield c f s => some (c, f, s)
  | _ => none

def fieldRefs (code : List Instr) : List (Name × Name × Storage) := code.filterMap Instr.field?

/-- Code of the class `c` reads and writes these fields, in order. -/
def AccessesIn (c : Name) (code : List Instr) (fields : List (Name × Ty)) : Prop :=
  fieldRefs code = fields.map fun f => (c, f.1, f.2.storage)

namespace Frame

variable {f : Frame} {sc : Scope}

theorem picks_fields : f.Picks sc .fields Instr.field? fun x => (f.cls, x.1, x.2.storage) where
  plain := fun i hi => by cases i <;> first | rfl | cases hi
  locals := fun _ _ => rfl
  fields := fun _ _ => ⟨rfl, rfl⟩
  calls := fun _ _ _ _ _ _ _ => rfl

/-- **The code of a method reads and writes the fields that the method does**, as fields of the class that the code belongs
to. -/
theorem lowerBody_accesses {t : ClassTable} {c : Name} {m : Method} {code : List Instr} {n n' : Nat}
    (hm : m.MarkedIn t c) (h : f.lowerBody m n = .ok (code, n')) : AccessesIn f.cls code m.fields :=
  lowerBody_gathers picks_fields hm h

end Frame

end Assembly

/-! ## In C -/

namespace CUnit

/-- The name of the member of the object that a place is. -/
def Place.member? : Place → Option Name
  | frame _ | formal _ => none
  | field f => some f

namespace CExpr

mutual

/-- The members of the object that an expression reads, from left to right. -/
def members : CExpr → List Name
  | int _ | self | newObject _ => []
  | read p => p.member?.toList
  | binary l _ r => members l ++ members r
  | not e | length e | newArray e | cast _ e => members e
  | index a i => members a ++ members i
  | call _ r _ es => members r ++ membersAll es

def membersAll : List CExpr → List Name
  | [] => []
  | e :: es => members e ++ membersAll es

end

theorem members_coerce (found expected : Storage) (c : CExpr) : (coerce found expected c).members = c.members := by
  unfold coerce
  split
  · split <;> rfl
  · rfl

end CExpr

namespace CStmt

mutual

/-- The members that a statement reads and writes, in the order of `Stmt.fields`. -/
def members : CStmt → List Name
  | block body => membersAll body
  | ite c yes no => c.members ++ members no ++ members yes
  | loop c body => c.members ++ members body
  | print e => e.members
  | assign p e => e.members ++ p.member?.toList
  | store p i e => p.member?.toList ++ i.members ++ e.members

def membersAll : List CStmt → List Name
  | [] => []
  | s :: ss => members s ++ membersAll ss

end

end CStmt

def Function.members (f : Function) : List Name := CStmt.membersAll f.body ++ f.result.members

variable {formals : List Name} {sc : Scope}

theorem member?_placeOf {x : Variable} {ty : Ty} {home : Home} {place : Place} (h : sc.MarkedVariable x ty home)
    (hp : placeOf formals x = .ok place) : place.member?.toList = x.field?.toList.map Prod.fst := by
  cases h with
  | intro _ =>
    cases home with
    | object =>
      cases placeOf_object_eq_ok.1 hp
      rfl
    | method =>
      cases placeOf_method_eq_ok.1 hp
      split <;> rfl

/-- Members that are the names of fields, taken together. -/
theorem append_eq_map_fst {ns ms : List Name} {fs gs : List (Name × Ty)} (h : ns = fs.map Prod.fst)
    (h' : ms = gs.map Prod.fst) : ns ++ ms = (fs ++ gs).map Prod.fst := by
  rw [h, h', List.map_append]

mutual

/-- **The C code of an expression reads the members that the expression names as fields.** -/
theorem LowersExpr.members : ∀ {e : Expr} {ts ts' : TempList} {c : CExpr} {ty : Ty}, LowersExpr formals e ts c ts' →
    sc.Marked e ty → c.members = e.fields.map Prod.fst
  | _, _, _, _, _, .literal, _ | _, _, _, _, _, .bool, _ | _, _, _, _, _, .self, _ | _, _, _, _, _, .newObject, _ => rfl
  | _, _, _, _, _, .read hp, .read hx => member?_placeOf hx hp
  | _, _, _, _, _, .binary hcl hcr, .binary hl hr => append_eq_map_fst (hcl.members hl) (hcr.members hr)
  | _, _, _, _, _, .not hc, .not he | _, _, _, _, _, .length hc, .length he
  | _, _, _, _, _, .newArray hc, .newArray he => hc.members he
  | _, _, _, _, _, .index hca hci, .index ha hi => append_eq_map_fst (hca.members ha) (hci.members hi)
  | _, _, _, _, _, .call hres hcr hces, .call hr _ hes hformals => by
    cases hres
    rw [Expr.fields_call]
    exact append_eq_map_fst (hcr.members hr) (hces.members hes hformals)
termination_by structural e => e

theorem LowersArguments.members : ∀ {formalTys : List Ty} {es : List Expr} {ts ts' : TempList} {cs : List CExpr}
    {tys : List Ty}, LowersArguments formals formalTys es ts cs ts' → List.Forall₂ sc.Marked es tys →
    List.Forall₂ (fun ty formal => sc.classes.compatible ty formal = true) tys formalTys →
    CExpr.membersAll cs = (Expr.fieldsAll es).map Prod.fst
  | _, _, _, _, _, _, .noFormals, hes, .nil | _, _, _, _, _, _, .noArguments, hes, _ => by
    cases hes
    rfl
  | _, _, _, _, _, _, .cons _ hc hcs, .cons he hes, .cons _ hformals =>
    append_eq_map_fst ((CExpr.members_coerce _ _ _).trans (hc.members he)) (hcs.members hes hformals)
termination_by structural _ es => es

end

mutual

/-- **The C code of a statement reads and writes the members that the statement names as fields.** -/
theorem LowersStmt.members : ∀ {s : Stmt} {ts ts' : TempList} {c : CStmt}, LowersStmt formals s ts c ts' →
    sc.MarkedStmt s → c.members = s.fields.map Prod.fst
  | _, _, _, _, .block hcb, .block hb => hcb.members hb
  | _, _, _, _, .ite hcc hcy hcn, .ite hc hy hn =>
    append_eq_map_fst (append_eq_map_fst (hcc.members hc) (hcn.members hn)) (hcy.members hy)
  | _, _, _, _, .loop hcc hcb, .loop hc hb => append_eq_map_fst (hcc.members hc) (hcb.members hb)
  | _, _, _, _, .print hc, .print he => hc.members he
  | _, _, _, _, .assign hp hc, .assign hx he => append_eq_map_fst (hc.members he) (member?_placeOf hx hp)
  | _, _, _, _, .store hp hci hc, .store hx hi he =>
    append_eq_map_fst (append_eq_map_fst (member?_placeOf hx hp) (hci.members hi)) (hc.members he)
termination_by structural s => s

theorem LowersStmts.members : ∀ {ss : List Stmt} {ts ts' : TempList} {cs : List CStmt}, LowersStmts formals ss ts cs ts' →
    (∀ s ∈ ss, sc.MarkedStmt s) → CStmt.membersAll cs = (Stmt.fieldsAll ss).map Prod.fst
  | _, _, _, _, .nil, _ => rfl
  | _, _, _, _, .cons hc hcs, hss => by
    obtain ⟨hs, hss⟩ := List.forall_mem_cons.1 hss
    exact append_eq_map_fst (hc.members hs) (hcs.members hss)
termination_by structural ss => ss

end

/-- **The function of a method reads and writes the members that the method names as fields.** -/
theorem accesses_of_defines {t : ClassTable} {c : Name} {m : Method} {f : Function} (hm : m.MarkedIn t c)
    (h : Defines c m f) : f.members = m.fields.map Prod.fst := by
  obtain ⟨_, found, code, hcb, -, hcr, hresult⟩ := h.exists_parts
  obtain ⟨ty, hr, -⟩ := hm.result
  rw [Function.members, ← hresult, CExpr.members_coerce]
  exact append_eq_map_fst (hcb.members hm.body) (hcr.members hr)

end CUnit

end MiniJava
