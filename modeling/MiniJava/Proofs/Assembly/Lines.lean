import MiniJava.Proofs.Assembly.Descriptors
import MiniJava.Proofs.Token.Lexemes
/-!
# The lines of instructions

An instruction is written as an opcode and an operand, in a line of its own or in the first of three; only a label is
written by itself.  The opcode ends at the first space, so that a line shows it, and with it of what kind the operand is.
An instruction can therefore be told from its first line, and where its lines end (`Instr.lines_append_inj`), as long as
the names in it are identifiers.
-/
namespace MiniJava

/-! ## Names and numbers -/

theorem IsIdentifier.not_mem {x : Name} (h : IsIdentifier x) {c : Char} (hc : isWordChar c = false) : c ∉ x.toList :=
  fun hmem => Bool.false_ne_true (hc.symm.trans (List.all_eq_true.1 h.chars c hmem))

/-- All classes in it are named by identifiers. -/
def Storage.Lexical (s : Storage) : Prop := ∀ c, s = .object c → IsIdentifier c

theorem Storage.Lexical.readable {s : Storage} (h : s.Lexical) : s.Readable := fun c hc => (h c hc).not_mem rfl

theorem Storage.descriptor_inj {s s' : Storage} (hs : s.Lexical) (hs' : s'.Lexical) (h : s.descriptor = s'.descriptor) :
    s = s' := by
  have hchars : s.descriptor.toList ++ [] = s'.descriptor.toList ++ [] := by rw [h]
  exact (descriptor_append_inj hs.readable hs'.readable hchars).1

/-! ### Texts that stand in one line -/

def OneLine (s : String) : Prop := '\n' ∉ s.toList

instance (s : String) : Decidable (OneLine s) := inferInstanceAs (Decidable (¬ _))

theorem OneLine.append {s s' : String} (h : OneLine s) (h' : OneLine s') : OneLine (s ++ s') := by
  rw [OneLine, String.toList_append, List.mem_append, not_or]
  exact ⟨h, h'⟩

theorem OneLine.join {ss : List String} (h : ∀ s ∈ ss, OneLine s) : OneLine (String.join ss) := by
  rw [OneLine, String.toList_join, List.mem_flatMap]
  rintro ⟨s, hs, hmem⟩
  exact h s hs hmem

theorem IsIdentifier.oneLine {x : Name} (h : IsIdentifier x) : OneLine x := h.not_mem rfl

theorem Storage.Lexical.oneLine {s : Storage} (h : s.Lexical) : OneLine s.descriptor := by
  cases s with
  | int | intArray => decide
  | object c => exact (OneLine.append (by decide) (h c rfl).oneLine).append (by decide)

theorem Assembly.oneLine_descriptors {formals : List Storage} {returns : Storage}
    (h : ∀ s ∈ returns :: formals, s.Lexical) : OneLine (descriptors formals returns) := by
  obtain ⟨hreturns, hformals⟩ := List.forall_mem_cons.1 h
  have hjoin : OneLine (String.join (formals.map Storage.descriptor)) :=
    .join (List.forall_mem_map.2 fun s hs => (hformals s hs).oneLine)
  exact (((OneLine.append (by decide) hjoin).append (by decide)).append hreturns.oneLine)

/-! ### Numbers -/

theorem oneLine_toString (n : Nat) : OneLine (toString n) := fun hmem =>
  absurd (isDigit_of_mem_toString hmem) (by decide)

theorem toList_toString_negSucc (n : Nat) : (toString (Int.negSucc n)).toList = '-' :: (toString (n + 1)).toList :=
  String.toList_append

theorem toString_int_injective : Function.Injective (toString : Int → String) := by
  have hsign : ∀ m n : Nat, toString (Int.ofNat m) ≠ toString (Int.negSucc n) := fun m n h => by
    have hmem : '-' ∈ (toString m).toList := by
      show '-' ∈ (toString (Int.ofNat m)).toList
      rw [h, toList_toString_negSucc]
      exact List.mem_cons_self
    exact absurd (isDigit_of_mem_toString hmem) (by decide)
  rintro (m | m) (n | n) h
  · exact congrArg Int.ofNat (toString_nat_injective h)
  · exact absurd h (hsign m n)
  · exact absurd h.symm (hsign n m)
  · have hchars := congrArg String.toList h
    rw [toList_toString_negSucc, toList_toString_negSucc, List.cons.injEq] at hchars
    rw [Nat.succ.inj (toString_nat_injective (String.toList_inj.1 hchars.2))]

namespace Assembly

theorem Label.text_injective : Function.Injective Label.text := by
  rintro ⟨m⟩ ⟨n⟩ h
  exact congrArg Label.mk (toString_nat_injective (String.append_right_inj "L_" |>.1 h))

/-! ## Operands -/

theorem name_descriptors_inj {x x' : Name} {formals formals' : List Storage} {returns returns' : Storage}
    (hx : IsIdentifier x) (hx' : IsIdentifier x') (h : ∀ s ∈ returns :: formals, s.Lexical)
    (h' : ∀ s ∈ returns' :: formals', s.Lexical)
    (htext : x ++ descriptors formals returns = x' ++ descriptors formals' returns') :
    x = x' ∧ formals = formals' ∧ returns = returns' := by
  have heq := congrArg String.toList htext
  rw [String.toList_append, String.toList_append, toList_descriptors, toList_descriptors] at heq
  obtain ⟨hname, hafter⟩ := append_cons_inj (hx.not_mem rfl) (hx'.not_mem rfl) heq
  have hdescriptors : descriptors formals returns = descriptors formals' returns' := by
    rw [← String.toList_inj, toList_descriptors, toList_descriptors, hafter]
  exact ⟨String.toList_inj.1 hname, (descriptors_eq_iff (fun s hs => (h s hs).readable)
    fun s hs => (h' s hs).readable).1 hdescriptors⟩

theorem Label.oneLine_text (l : Label) : OneLine l.text := OneLine.append (by decide) (oneLine_toString l.number)

structure MethodRef.Lexical (m : MethodRef) : Prop where
  cls : IsIdentifier m.cls
  method : IsIdentifier m.method
  types : ∀ s ∈ m.returns :: m.formals, s.Lexical

/-- **All names in the instruction are ones that the lexer can produce.** -/
def Instr.Lexical : Instr → Prop
  | new c => IsIdentifier c
  | getfield c f s | putfield c f s => IsIdentifier c ∧ IsIdentifier f ∧ s.Lexical
  | invokevirtual m => m.Lexical
  | _ => True

/-- What stands behind an opcode. -/
inductive Operand where
  | number (value : Int)
  | word (text : String)
  | member (cls field : Name) (storage : Storage)
  | label (l : Label)
  | method (m : MethodRef)

/-- The kinds of operands. -/
inductive OperandKind where
  | number | word | member | label | method

namespace Operand

def kind : Operand → OperandKind
  | number _ => .number
  | word _ => .word
  | member _ _ _ => .member
  | label _ => .label
  | method _ => .method

protected def text : Operand → String
  | number v => toString v
  | word text => text
  | member c f s => c ++ "/" ++ f ++ " " ++ s.descriptor
  | label l => l.text
  | method m => m.text

/-- The names in the operand are identifiers, and its words stand in one line. -/
def Lexical : Operand → Prop
  | word text => '\n' ∉ text.toList
  | member c f s => IsIdentifier c ∧ IsIdentifier f ∧ s.Lexical
  | method m => m.Lexical
  | _ => True

theorem member_text_inj {c c' f f' : Name} {s s' : Storage} (h : (member c f s).Lexical) (h' : (member c' f' s').Lexical)
    (htext : (member c f s).text = (member c' f' s').text) : member c f s = member c' f' s' := by
  obtain ⟨hc, hf, hs⟩ := h
  obtain ⟨hc', hf', hs'⟩ := h'
  have hchars : ∀ (c f : Name) (s : Storage),
      (member c f s).text.toList = c.toList ++ '/' :: (f.toList ++ ' ' :: s.descriptor.toList) := fun c f s => by
    simp [Operand.text]
  have heq := congrArg String.toList htext
  rw [hchars, hchars] at heq
  obtain ⟨hcls, hrest⟩ := append_cons_inj (hc.not_mem rfl) (hc'.not_mem rfl) heq
  obtain ⟨hfield, hdescriptor⟩ := append_cons_inj (hf.not_mem rfl) (hf'.not_mem rfl) hrest
  rw [String.toList_inj.1 hcls, String.toList_inj.1 hfield,
    Storage.descriptor_inj hs hs' (String.toList_inj.1 hdescriptor)]

theorem method_text_inj {m m' : MethodRef} (h : m.Lexical) (h' : m'.Lexical) (htext : m.text = m'.text) : m = m' := by
  obtain ⟨cls, method, formals, returns⟩ := m
  obtain ⟨cls', method', formals', returns'⟩ := m'
  have hchars : ∀ m : MethodRef, m.text.toList =
      m.cls.toList ++ '/' :: (m.method ++ descriptors m.formals m.returns).toList := fun m => by
    simp [MethodRef.text]
  have heq := congrArg String.toList htext
  rw [hchars, hchars] at heq
  obtain ⟨hcls, hrest⟩ := append_cons_inj (h.cls.not_mem rfl) (h'.cls.not_mem rfl) heq
  obtain ⟨rfl, rfl, rfl⟩ := name_descriptors_inj h.method h'.method h.types h'.types (String.toList_inj.1 hrest)
  obtain rfl : cls = cls' := String.toList_inj.1 hcls
  rfl

/-- **Operands of one kind have different texts.** -/
theorem text_inj {x y : Operand} (hx : x.Lexical) (hy : y.Lexical) (hkind : x.kind = y.kind) (h : x.text = y.text) :
    x = y := by
  cases x <;> cases y <;> cases hkind
  case number => exact congrArg number (toString_int_injective h)
  case word => exact congrArg word h
  case member => exact member_text_inj hx hy h
  case label => exact congrArg label (Label.text_injective h)
  case method => exact congrArg method (method_text_inj hx hy h)

theorem eq_of_map {x y : Option Operand} (hx : ∀ a ∈ x, a.Lexical) (hy : ∀ a ∈ y, a.Lexical)
    (hkind : x.map kind = y.map kind) (htext : x.map Operand.text = y.map Operand.text) : x = y := by
  cases x with
  | none =>
    cases y with
    | none => rfl
    | some b => cases hkind
  | some a =>
    cases y with
    | none => cases hkind
    | some b => exact congrArg some (text_inj (hx a rfl) (hy b rfl) (Option.some.inj hkind) (Option.some.inj htext))

theorem oneLine_text {x : Operand} (h : x.Lexical) : OneLine x.text := by
  cases x with
  | number v =>
    cases v with
    | ofNat n => exact oneLine_toString n
    | negSucc n => exact OneLine.append (by decide) (oneLine_toString (n + 1))
  | word text => exact h
  | member c f s =>
    obtain ⟨hc, hf, hs⟩ := h
    exact (((hc.oneLine.append (by decide)).append hf.oneLine).append (by decide)).append hs.oneLine
  | label l => exact l.oneLine_text
  | method m => exact ((h.cls.oneLine.append (by decide)).append h.method.oneLine).append (oneLine_descriptors h.types)

end Operand

theorem oneLine_withOperand {opcode operand : String} (hopcode : OneLine opcode) (hoperand : OneLine operand) :
    OneLine (withOperand opcode operand) := by
  have hpad : OneLine (String.ofList (List.replicate (opcodeWidth - opcode.length) ' ')) := by
    simp [OneLine]
  exact ((OneLine.append (by decide) hopcode).append hpad).append hoperand

/-! ## Operations -/

/-- An opcode, and its operand if it has one. -/
@[ext] structure Operation where
  opcode : String
  operand : Option Operand

namespace Operation

/-- An operation as a line. -/
def line (o : Operation) : String :=
  match o.operand with
  | none => bare o.opcode
  | some x => withOperand o.opcode x.text

theorem head?_line (o : Operation) : o.line.toList.head? = some '\t' := by
  obtain ⟨opcode, x⟩ := o
  cases x <;> simp [line, bare, withOperand]

/-- The opcode is a word and leaves room for a space before the operand. -/
structure Fits (o : Operation) : Prop where
  word : ∀ c ∈ o.opcode.toList, isWordChar c = true
  room : o.opcode.length < opcodeWidth

theorem toList_withOperand {opcode : String} (h : opcode.length < opcodeWidth) (operand : String) : ∃ k,
    (withOperand opcode operand).toList = '\t' :: (opcode.toList ++ ' ' :: (List.replicate k ' ' ++ operand.toList)) ∧
      opcodeWidth = opcode.length + k + 1 := by
  obtain ⟨k, hk⟩ := Nat.exists_eq_add_of_lt h
  refine ⟨k, ?_, hk⟩
  have hpad : opcodeWidth - opcode.length = k + 1 := by omega
  simp [withOperand, hpad, List.replicate_succ]

/-- **A line shows the opcode and the operand's text.** -/
theorem line_inj {o o' : Operation} (ho : o.Fits) (ho' : o'.Fits) (h : o.line = o'.line) :
    o.opcode = o'.opcode ∧ o.operand.map Operand.text = o'.operand.map Operand.text := by
  obtain ⟨opcode, x⟩ := o
  obtain ⟨opcode', x'⟩ := o'
  obtain ⟨hword, hlength⟩ := ho
  obtain ⟨hword', hlength'⟩ := ho'
  have hspace : ' ' ∉ opcode.toList := fun hmem => Bool.false_ne_true (hword _ hmem)
  have hspace' : ' ' ∉ opcode'.toList := fun hmem => Bool.false_ne_true (hword' _ hmem)
  -- a line without an operand has no space in it
  have hbare : ∀ {p q : String} {t : String}, ' ' ∉ p.toList → q.length < opcodeWidth → bare p ≠ withOperand q t := by
    intro p q t hp hq heq
    obtain ⟨k, hchars, -⟩ := toList_withOperand hq t
    have hmem : ' ' ∈ (bare p).toList := by
      rw [heq, hchars]
      simp
    simp [bare] at hmem
    exact hp hmem
  cases x with
  | none =>
    cases x' with
    | none => exact ⟨(String.append_right_inj "\t").1 h, rfl⟩
    | some x' => exact absurd h (hbare hspace hlength')
  | some x =>
    cases x' with
    | none => exact absurd h.symm (hbare hspace' hlength)
    | some x' =>
      have h : withOperand opcode x.text = withOperand opcode' x'.text := h
      obtain ⟨k, hchars, hk⟩ := toList_withOperand hlength x.text
      obtain ⟨k', hchars', hk'⟩ := toList_withOperand hlength' x'.text
      have heq := congrArg String.toList h
      rw [hchars, hchars'] at heq
      obtain ⟨hopcode, hrest⟩ := append_cons_inj hspace hspace' (List.cons.inj heq).2
      obtain rfl : opcode = opcode' := String.toList_inj.1 hopcode
      obtain rfl : k = k' := Nat.add_left_cancel (Nat.succ.inj (hk.symm.trans hk'))
      exact ⟨rfl, congrArg some (String.toList_inj.1 (List.append_cancel_left hrest))⟩

theorem oneLine_line {o : Operation} (ho : o.Fits) (hoperand : ∀ x ∈ o.operand, x.Lexical) : OneLine o.line := by
  obtain ⟨opcode, x⟩ := o
  have hopcode : OneLine opcode := fun hmem => Bool.false_ne_true (ho.word _ hmem)
  cases x with
  | none => exact OneLine.append (by decide) hopcode
  | some x => exact oneLine_withOperand hopcode (x.oneLine_text (hoperand x rfl))

end Operation

/-! ## Instructions -/

namespace Instr

/-- The operation that an instruction begins with; a label is none. -/
def operation : Instr → Operation
  | aload n => ⟨"aload", some (.number n)⟩
  | astore n => ⟨"astore", some (.number n)⟩
  | iload n => ⟨"iload", some (.number n)⟩
  | istore n => ⟨"istore", some (.number n)⟩
  | ldc v => ⟨"ldc", some (.number v)⟩
  | iadd => ⟨"iadd", none⟩
  | isub => ⟨"isub", none⟩
  | imul => ⟨"imul", none⟩
  | iand => ⟨"iand", none⟩
  | iaload => ⟨"iaload", none⟩
  | iastore => ⟨"iastore", none⟩
  | arraylength => ⟨"arraylength", none⟩
  | newarray => ⟨"newarray", some (.word "int")⟩
  | new c => ⟨"new", some (.word c)⟩
  | getfield c f s => ⟨"getfield", some (.member c f s)⟩
  | putfield c f s => ⟨"putfield", some (.member c f s)⟩
  | goto l => ⟨"goto", some (.label l)⟩
  | ifne l => ⟨"ifne", some (.label l)⟩
  | ifeq l => ⟨"ifeq", some (.label l)⟩
  | ificmplt l => ⟨"if_icmplt", some (.label l)⟩
  | label l => ⟨"", some (.label l)⟩
  | invokevirtual m => ⟨"invokevirtual", some (.method m)⟩
  | ireturn => ⟨"ireturn", none⟩
  | areturn => ⟨"areturn", none⟩
  | print => ⟨"getstatic", some (.word "java/lang/System/out Ljava/io/PrintStream;")⟩

/-- The instruction that begins with an operation. -/
def ofOperation : Operation → Option Instr
  | ⟨"aload", some (.number v)⟩ => some (aload v.toNat)
  | ⟨"astore", some (.number v)⟩ => some (astore v.toNat)
  | ⟨"iload", some (.number v)⟩ => some (iload v.toNat)
  | ⟨"istore", some (.number v)⟩ => some (istore v.toNat)
  | ⟨"ldc", some (.number v)⟩ => some (ldc v)
  | ⟨"iadd", none⟩ => some iadd
  | ⟨"isub", none⟩ => some isub
  | ⟨"imul", none⟩ => some imul
  | ⟨"iand", none⟩ => some iand
  | ⟨"iaload", none⟩ => some iaload
  | ⟨"iastore", none⟩ => some iastore
  | ⟨"arraylength", none⟩ => some arraylength
  | ⟨"newarray", some (.word _)⟩ => some newarray
  | ⟨"new", some (.word c)⟩ => some (new c)
  | ⟨"getfield", some (.member c f s)⟩ => some (getfield c f s)
  | ⟨"putfield", some (.member c f s)⟩ => some (putfield c f s)
  | ⟨"goto", some (.label l)⟩ => some (goto l)
  | ⟨"ifne", some (.label l)⟩ => some (ifne l)
  | ⟨"ifeq", some (.label l)⟩ => some (ifeq l)
  | ⟨"if_icmplt", some (.label l)⟩ => some (ificmplt l)
  | ⟨"", some (.label l)⟩ => some (label l)
  | ⟨"invokevirtual", some (.method m)⟩ => some (invokevirtual m)
  | ⟨"ireturn", none⟩ => some ireturn
  | ⟨"areturn", none⟩ => some areturn
  | ⟨"getstatic", some (.word _)⟩ => some print
  | _ => none

theorem ofOperation_operation (i : Instr) : ofOperation i.operation = some i := by
  cases i <;> rfl

theorem operation_injective : Function.Injective operation := fun i j h => by
  rw [← Option.some.injEq, ← ofOperation_operation, h, ofOperation_operation]

/-- The kind of the operand that an opcode has. -/
def kindOf : String → Option OperandKind
  | "aload" | "astore" | "iload" | "istore" | "ldc" => some .number
  | "newarray" | "new" | "getstatic" => some .word
  | "getfield" | "putfield" => some .member
  | "goto" | "ifne" | "ifeq" | "if_icmplt" | "" => some .label
  | "invokevirtual" => some .method
  | _ => none

theorem kindOf_operation (i : Instr) : i.operation.operand.map Operand.kind = kindOf i.operation.opcode := by
  cases i <;> rfl

theorem fits_operation (i : Instr) : i.operation.Fits := by
  have hword : i.operation.opcode.toList.all isWordChar = true := by cases i <;> simp only [operation] <;> decide
  have hroom : i.operation.opcode.length < opcodeWidth := by cases i <;> simp only [operation] <;> decide
  exact ⟨List.all_eq_true.1 hword, hroom⟩

theorem lexical_operation {i : Instr} (h : i.Lexical) : ∀ x ∈ i.operation.operand, x.Lexical := by
  cases i <;> rintro _ ⟨⟩ <;> first | exact trivial | exact h | exact h.not_mem rfl | (show '\n' ∉ _; decide)

/-- The first line of an instruction, or the only one. -/
def line (i : Instr) : String :=
  match i with
  | label l => l.text ++ ":"
  | i => i.operation.line

theorem lines_eq_cons (i : Instr) : i.lines = i.line :: i.lines.tail := by
  cases i <;> rfl

theorem line_eq_or (i : Instr) : (∃ l, i = label l) ∨ i.line = i.operation.line := by
  cases i <;> first | exact .inr rfl | exact .inl ⟨_, rfl⟩

theorem head?_line_label (l : Label) : (label l).line.toList.head? = some 'L' := by
  simp [line, Label.text]

/-- Only an operation is indented. -/
theorem label_line_ne (l : Label) (o : Operation) : (label l).line ≠ o.line := fun h => by
  have hhead := head?_line_label l
  rw [h, o.head?_line] at hhead
  cases hhead

/-- **An instruction can be told from its first line.** -/
theorem line_inj {i j : Instr} (hi : i.Lexical) (hj : j.Lexical) (h : i.line = j.line) : i = j := by
  rcases i.line_eq_or with ⟨l, rfl⟩ | hline <;> rcases j.line_eq_or with ⟨l', rfl⟩ | hline'
  · rw [Label.text_injective ((String.append_left_inj ":").1 h)]
  · exact absurd (h.trans hline') (label_line_ne l j.operation)
  · exact absurd (h.symm.trans hline) (label_line_ne l' i.operation)
  · obtain ⟨hopcode, htext⟩ := Operation.line_inj i.fits_operation j.fits_operation (hline ▸ hline' ▸ h)
    have hkind : i.operation.operand.map Operand.kind = j.operation.operand.map Operand.kind := by
      rw [kindOf_operation, kindOf_operation, hopcode]
    have hoperand := Operand.eq_of_map (lexical_operation hi) (lexical_operation hj) hkind htext
    exact operation_injective (Operation.ext hopcode hoperand)

/-- **Where the lines of an instruction end can be seen in the text.** -/
theorem lines_append_inj {i j : Instr} {xs ys : List String} (hi : i.Lexical) (hj : j.Lexical)
    (h : i.lines ++ xs = j.lines ++ ys) : i = j ∧ xs = ys := by
  have hline : i.line = j.line := by
    rw [i.lines_eq_cons, j.lines_eq_cons] at h
    exact (List.cons.inj h).1
  obtain rfl := line_inj hi hj hline
  exact ⟨rfl, List.append_cancel_left h⟩

theorem oneLine_line {i : Instr} (h : i.Lexical) : OneLine i.line := by
  rcases i.line_eq_or with ⟨l, rfl⟩ | hline
  · exact l.oneLine_text.append (by decide)
  · rw [hline]
    exact Operation.oneLine_line i.fits_operation (lexical_operation h)

theorem oneLine_constructorOf {c : Name} (h : OneLine c) : OneLine (constructorOf c) := h.append (by decide)

/-- **Each line of an instruction is one line.** -/
theorem oneLine_lines {i : Instr} (h : i.Lexical) : ∀ line ∈ i.lines, OneLine line := by
  rw [i.lines_eq_cons]
  refine List.forall_mem_cons.2 ⟨oneLine_line h, ?_⟩
  cases i with
  | new c =>
    have hconstructor := oneLine_constructorOf (IsIdentifier.oneLine h)
    exact List.forall_mem_cons.2 ⟨by decide, List.forall_mem_singleton.2 (oneLine_withOperand (by decide) hconstructor)⟩
  | print => exact List.forall_mem_cons.2 ⟨by decide, List.forall_mem_singleton.2 (by decide)⟩
  | _ => exact nofun

end Instr

end Assembly

end MiniJava
