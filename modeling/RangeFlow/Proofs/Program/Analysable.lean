import RangeFlow.Proofs.Program.Addresses
import RangeFlow.Proofs.Program.LoopFree
import RangeFlow.Proofs.Range.Resize

/-!
# Programs that can be analysed

The check of a program does not look at everything that the analysis takes for granted.  Operators
and casts read their operands as integers, an extension must not narrow, a load and a store follow
their address to its end, and a zero is walked along its type.  `Program.IsAnalysable` says that
this is possible, and `Program.isShort` that every number a warning could have to show can be
written.
-/

namespace RangeFlow

/-! ## What the analysis takes for granted -/

/-- Whether the operands have the types that a value is computed from. -/
def Value.isAnalysable : Value → Bool
  | .binary _ _ a b => a.ty.isInt && b.ty.isInt
  | .cast .trunc _ o t | .cast .zext _ o t => o.ty.isInt && t.isInt
  | .cast .sext _ o t => o.ty.isNoWider t
  | .cast .ptrtoint _ _ t => t.isInt
  | .cast .bitcast s o t => !(s.isInt && t.isInt) || o.ty.isInt
  | .select t _ a b => !t.isInt || (a.ty.isInt && b.ty.isInt)
  | .cast .inttoptr _ _ _ | .compare _ _ _ _ | .phi _ _ | .load _ _ | .alloca _ | .field _ _ _
  | .elem _ _ _ | .call _ => true

/-- An action in a block of a function can be carried out on ranges.  A phi takes no value along an
edge that closes a loop. -/
def Action.IsAnalysable (f : Function) (loops : OrderedSet Edge) (label : String) : Action → Prop
  | .assign _ (.phi t entries) => t.isInt = true →
    ∀ e ∈ entries, (⟨e.label, label⟩ : Edge) ∉ loops → e.value.ty.isInt = true
  | .assign _ (.load t address) => t.isInt = true → f.Ends address
  | .assign _ v => v.isAnalysable = true
  | .store _ v address => v.ty.isInt = true → f.Ends address
  | .finish (.ret t v) => t.isInt = true → v.ty.isInt = true
  | .call _ | .finish _ => True

def Function.IsAnalysable (f : Function) : Prop :=
  ∀ loops, f.backEdges = .ok loops → ∀ b ∈ f.blocks, ∀ i ∈ b.instrs,
    i.action.IsAnalysable f loops b.label

/-- Every instruction can be carried out on ranges, and no zero among the initial values that are
looked at is one of a type within itself. -/
structure Program.IsAnalysable (p : Program) : Prop where
  functions : ∀ f ∈ p.functions, f.IsAnalysable
  globals : ∀ g ∈ p.globals, g.name.startsWith "." = false → ∀ c, g.init = some c →
    ∀ t, p.HasZero g.ty c t → Acc p.Part t

/-! ## Short integers -/

/-- Whether every word of the width can be written: two to this power has 4300 digits. -/
def Width.isShort (w : Width) : Bool := w.bits ≤ 14284

/-- The bounds of a range at a short width can be written. -/
theorem Range.isWritable_of_isShort {r : Range} (h : r.width.isShort = true) :
    r.isWritable = true := by
  have hcard : r.width.card ≤ Nat.pow 10 Text.digitLimit := by
    calc r.width.card ≤ (⟨14284, by decide⟩ : Width).card :=
          Width.card_le_card (of_decide_eq_true h)
      _ ≤ Nat.pow 10 Text.digitLimit := by decide +kernel
  have hlower : (r.lower : Int).natAbs < Nat.pow 10 Text.digitLimit := r.lower_lt.trans_le hcard
  have hupper : (r.upper : Int).natAbs < Nat.pow 10 Text.digitLimit := r.upper_lt.trans_le hcard
  unfold isWritable hasWritableBounds Text.isWritable
  rw [decide_eq_true hlower, decide_eq_true hupper, Bool.and_self, Bool.or_true]

theorem Width.countable_of_isShort {w : Width} (h : w.isShort = true) :
    countable w.bits = .ok () := by
  have hbits : w.bits ≤ 14284 := of_decide_eq_true h
  unfold countable
  rw [if_neg (by omega), if_neg (by omega)]

namespace Ty

mutual

/-- Whether all integers of a type are short, those of named struct types apart. -/
def isShort : Ty → Bool
  | .int w => w.isShort
  | .array _ element => isShort element
  | .literal fields => areShort fields
  | .ptr | .void | .named _ => true

def areShort : List Ty → Bool
  | [] => true
  | t :: ts => isShort t && areShort ts

end

theorem isShort_of_mem {ts : List Ty} (h : areShort ts = true) {t : Ty} (ht : t ∈ ts) :
    t.isShort = true := by
  induction ts with
  | nil => exact absurd ht List.not_mem_nil
  | cons s ts ih =>
    rw [areShort, Bool.and_eq_true] at h
    rcases List.mem_cons.1 ht with rfl | ht
    · exact h.1
    · exact ih h.2 ht

end Ty

/-- Whether the integers that an instruction reads and assigns are short, and the number of a field
can be written. -/
def Instr.isShort (i : Instr) : Bool :=
  (i.operands.all fun o ↦ o.ty.isShort) && i.resultTy?.all Ty.isShort &&
    match i.action with
    | .assign _ (.field _ _ index) => Text.isWritable index
    | _ => true

/-- Whether the text of a program can be written, and all its integers are short. -/
def Program.isShort (p : Program) : Bool :=
  p.isWritable && (p.structs.all fun s ↦ Ty.areShort (s.fields.getD [])) &&
    (p.globals.all fun g ↦ g.ty.isShort) && p.functions.all fun f ↦ f.instrs.all Instr.isShort

section Short

variable {p : Program} {f : Function} {i : Instr}

/-- In a program of short integers the parts of a type of short integers have short integers only.
-/
theorem Program.isShort_of_part (h : p.isShort = true) {s t : Ty} (hs : p.Part s t)
    (ht : t.isShort = true) : s.isShort = true := by
  cases hs with
  | element => exact ht
  | field hmem => exact Ty.isShort_of_mem ht hmem
  | @body name fields t hfields hmem =>
    simp only [isShort, Bool.and_eq_true, List.all_eq_true] at h
    obtain ⟨d, hfind, hd⟩ := Option.bind_eq_some_iff.1 hfields
    have hshort := h.1.1.2 d (List.mem_of_find?_eq_some hfind)
    rw [hd, Option.getD_some] at hshort
    exact Ty.isShort_of_mem hshort hmem

/-- The integers that an initial value of a global variable can hold are short. -/
theorem Program.isShort_of_reflTransGen (h : p.isShort = true) {g : Global} (hg : g ∈ p.globals)
    {t : Ty} (ht : Relation.ReflTransGen p.Part t g.ty) : t.isShort = true := by
  induction ht using Relation.ReflTransGen.head_induction_on with
  | refl =>
    simp only [isShort, Bool.and_eq_true, List.all_eq_true] at h
    exact h.1.2 g hg
  | head hpart _ ih => exact p.isShort_of_part h hpart ih

/-- The instructions of a program of short integers read and assign short integers. -/
theorem Program.instr_isShort (h : p.isShort = true) (hf : f ∈ p.functions) (hi : i ∈ f.instrs) :
    i.isShort = true := by
  simp only [isShort, Bool.and_eq_true, List.all_eq_true] at h
  exact h.2 f hf i hi

/-- The instructions of a program of short integers can be written. -/
theorem Program.instr_isWritable (h : p.isShort = true) (hf : f ∈ p.functions)
    (hi : i ∈ f.instrs) : i.isWritable = true := by
  simp only [isShort, isWritable, Function.isWritable, Block.isWritable, Bool.and_eq_true,
    List.all_eq_true] at h
  obtain ⟨b, hb, hib⟩ := List.mem_flatMap.1 hi
  exact (h.1.1.1.2 f hf).2 b hb i hib

/-- An instruction on short integers has operands of short integers. -/
theorem Instr.operand_isShort (h : i.isShort = true) {o : Operand} (ho : o ∈ i.operands) :
    o.ty.isShort = true := by
  simp only [isShort, Bool.and_eq_true, List.all_eq_true] at h
  exact h.1.1 o ho

/-- An instruction on short integers assigns short integers. -/
theorem Instr.value_isShort (h : i.isShort = true) {x : String} {v : Value}
    (ha : i.action = .assign x v) : v.ty.isShort = true := by
  simp only [isShort, Bool.and_eq_true] at h
  simpa [resultTy?, value?, ha] using h.1.2

/-- The number of the field that is taken can be written. -/
theorem Instr.field_isWritable (h : i.isShort = true) {x : String} {t : Ty} {a : Operand}
    {index : Int} (ha : i.action = .assign x (.field t a index)) :
    Text.isWritable index = true := by
  simp only [isShort, Bool.and_eq_true, ha] at h
  exact h.2

end Short

end RangeFlow
