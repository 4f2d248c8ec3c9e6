import TinyImp.Proofs.Code.DataSection
import TinyImp.Proofs.Program.Spelling

/-!
# The listing determines the program

The listing of generated code can be **read back**: it is cut into lines, each line at its blanks
and commas, and a line of two operands at its comma. What is read is what was written
(`Assembly.read_lines`), and so two programs with the same listing have the same code and the same
data names (`Program.assembly_eq_of_listing_eq`).

For that, an operand must not look like another one. A variable has the text of a register, of the
accumulator or of a number only if its name is *taken*, and a number is not a not-a-number. Nothing
else about the program matters but one fact on generated code: it adds to registers only, so that
`add esp, 4` takes bytes off the stack even in a program with a variable `esp`.
-/

namespace TinyImp

open Asm

/-! ### Operands -/

/-- The name is an `r` followed by digits, as those of the registers are. -/
def RegisterLike (name : String) : Prop :=
  ∃ ds : List Char, ds ≠ [] ∧ (∀ d ∈ ds, d.isDigit) ∧ name.toList = 'r' :: ds

instance (name : String) : Decidable (RegisterLike name) :=
  decidable_of_iff (name.toList.head? = some 'r' ∧ name.toList.tail ≠ [] ∧
      name.toList.tail.all Char.isDigit) <| by
    rw [RegisterLike]
    cases name.toList with
    | nil => simp
    | cons c ds => simp [and_comm, and_left_comm]

/-- The name is that of something else in a listing: the accumulator, a number or a register. -/
def Taken (name : String) : Prop :=
  name ∈ ["eax", "inf", "NaN"] ∨ RegisterLike name

instance (name : String) : Decidable (Taken name) :=
  inferInstanceAs (Decidable (_ ∨ _))

/-- The identifier has the form of a word, and nothing else has its name. -/
def FreeName (name : String) : Prop :=
  name.toList ∈ Lexical.word ∧ ¬ Taken name

namespace Asm

namespace Operand

/-- No other operand is written like this one. -/
def Legible : Operand → Prop
  | .reg _ => True
  | .data name => FreeName name
  | .imm value => value.IsNumber
  | .eax => True

private theorem toList_text_reg (n : Nat) :
    (Operand.reg n).text.toList = 'r' :: Nat.toDigits 10 n := by
  simp [text, digits]

private theorem registerLike_text_reg (n : Nat) : RegisterLike (Operand.reg n).text :=
  ⟨Nat.toDigits 10 n, Nat.toDigits_ne_nil, (Lexical.mem_digits.mp (Token.toDigits_mem_digits n)).2,
    toList_text_reg n⟩

/-- A register, the accumulator and a variable begin with a letter. -/
theorem head_text {o : Operand} (ho : o.Legible) (himm : ∀ value, o ≠ .imm value) :
    ∃ c rest, o.text.toList = c :: rest ∧ Lexeme.isWordStart c := by
  cases o with
  | reg n => exact ⟨'r', _, toList_text_reg n, rfl⟩
  | data name =>
    obtain ⟨c, rest, hcons, hc, -⟩ := Lexical.mem_word.mp ho.1
    exact ⟨c, rest, hcons, hc⟩
  | imm value => exact absurd rfl (himm value)
  | eax => exact ⟨'e', ['a', 'x'], rfl, rfl⟩

/-- A number is not written like any other operand. -/
theorem text_imm_ne {value : Const} {o : Operand} (hvalue : value.IsNumber) (ho : o.Legible)
    (himm : ∀ value, o ≠ .imm value) : o.text ≠ (Operand.imm value).text := by
  intro h
  rcases Const.head_text hvalue with hinf | ⟨c, rest, hcons, hc⟩
  · rw [text, hinf] at h
    cases o with
    | reg n => simpa [toList_text_reg] using congrArg String.toList h
    | data name => exact ho.2 (.inl (h ▸ by simp [text]))
    | imm value => exact himm value rfl
    | eax => simp [text] at h
  · obtain ⟨d, rest', hcons', hd⟩ := head_text ho himm
    rw [h, text, hcons] at hcons'
    obtain rfl : c = d := (List.cons.inj hcons').1
    rcases hc with hc | rfl
    · exact Lexical.not_isDigit_of_isWordStart hd hc
    · exact absurd hd (by decide)

/-- **Operands with the same text are the same**, if they are legible. -/
theorem text_injOn : Set.InjOn text {o | o.Legible} := by
  intro o ho o' ho' h
  cases o with
  | reg m =>
    cases o' with
    | reg n =>
      have hdigits := congrArg String.toList h
      rw [toList_text_reg, toList_text_reg, List.cons.injEq] at hdigits
      exact congrArg reg (digits_injective (congrArg String.ofList hdigits.2))
    | data name =>
      obtain rfl : (reg m).text = name := h
      exact absurd (.inr (registerLike_text_reg m)) ho'.2
    | imm value => exact absurd h (text_imm_ne ho' ho (by simp))
    | eax => simpa [toList_text_reg, text] using congrArg String.toList h
  | data name =>
    cases o' with
    | reg n =>
      obtain rfl : name = (reg n).text := h
      exact absurd (.inr (registerLike_text_reg n)) ho.2
    | data name' => exact congrArg data h
    | imm value => exact absurd h (text_imm_ne ho' ho (by simp))
    | eax =>
      obtain rfl : name = "eax" := h
      exact absurd (.inl (by simp)) ho.2
  | imm value =>
    cases o' with
    | imm value' => exact congrArg imm (Const.text_injective ho ho' h)
    | _ => exact absurd h.symm (text_imm_ne ho ho' (by simp))
  | eax =>
    cases o' with
    | reg n => simpa [toList_text_reg, text] using congrArg String.toList h
    | data name =>
      obtain rfl : "eax" = name := h
      exact absurd (.inl (by simp)) ho'.2
    | imm value => exact absurd h (text_imm_ne ho' ho (by simp))
    | eax => rfl

instance : Nonempty Operand :=
  ⟨.eax⟩

/-- The operand with the given text. -/
noncomputable def read (t : List Char) : Operand :=
  Function.invFunOn text {o | o.Legible} (String.ofList t)

/-- **A legible operand is read back from its text.** -/
private theorem read_text {o : Operand} (ho : o.Legible) : read o.text.toList = o := by
  rw [read, String.ofList_toList]
  exact text_injOn.leftInvOn_invFunOn ho

/-- An operand holds nothing but parts of words and of numbers. -/
theorem mem_text {o : Operand} (ho : o.Legible) :
    ∀ c ∈ o.text.toList, Lexeme.isWordPart c ∨ Const.isPart c := by
  have hword {w : List Char} (hw : w ∈ Lexical.word) :
      ∀ c ∈ w, Lexeme.isWordPart c ∨ Const.isPart c :=
    fun c hc => .inl (isWordPart_of_mem_word hw c hc)
  cases o with
  | reg n =>
    rw [toList_text_reg]
    refine hword (Lexical.cons_mem_word.mpr ⟨rfl, fun d hd => ?_⟩)
    exact Lexical.isWordPart_iff.mpr
      (.inr ((Lexical.mem_digits.mp (Token.toDigits_mem_digits n)).2 d hd))
  | data name => exact hword ho.1
  | imm value => exact fun c hc => .inr (Const.isPart_of_mem_text ho c hc)
  | eax => exact hword (Token.cons_mem_word_of_all (by decide))

/-- The text of an operand has no characters but those of words and numbers. -/
private theorem notMem_text {o : Operand} (ho : o.Legible) {c : Char}
    (hc : (Lexeme.isWordPart c || Const.isPart c) = false) : c ∉ o.text.toList := fun h => by
  rw [Bool.or_eq_false_iff] at hc
  rcases mem_text ho c h with h | h
  · exact absurd h (by simp [hc.1])
  · exact absurd h (by simp [hc.2])

end Operand

/-! ### Instructions -/

private theorem freeName_esp : FreeName "esp" :=
  ⟨Token.cons_mem_word_of_all (by decide), by decide⟩

namespace Instr

/-- The instruction is one that can be read back: its operands are legible, its names are words,
and it adds to no variable `esp`. -/
def Legible : Instr → Prop
  | .comment text => '\n' ∉ text.toList
  | .label name => name.toList ∈ Lexical.word
  | .mov dst src => dst.Legible ∧ src.Legible
  | .add dst src => (dst.Legible ∧ dst ≠ .data "esp") ∧ src.Legible
  | .sub dst src => dst.Legible ∧ src.Legible
  | .imul dst src => dst.Legible ∧ src.Legible
  | .cdq => True
  | .idiv src => src.Legible
  | .cmp lhs rhs => lhs.Legible ∧ rhs.Legible
  | .je target => target.toList ∈ Lexical.word
  | .jmp target => target.toList ∈ Lexical.word
  | .push src _ => src.Legible
  | .call name => name.toList ∈ Lexical.word
  | .freeStack _ => True
  | .ret => True

/-- The line of an instruction, first word and rest. -/
def line : Instr → List Char
  | .comment text => [';'] ++ ' ' :: text.toList
  | .label name => name.toList ++ [':']
  | .mov dst src => ['m', 'o', 'v'] ++ ' ' :: (dst.text.toList ++ ',' :: ' ' :: src.text.toList)
  | .add dst src => ['a', 'd', 'd'] ++ ' ' :: (dst.text.toList ++ ',' :: ' ' :: src.text.toList)
  | .sub dst src => ['s', 'u', 'b'] ++ ' ' :: (dst.text.toList ++ ',' :: ' ' :: src.text.toList)
  | .imul dst src =>
    ['i', 'm', 'u', 'l'] ++ ' ' :: (dst.text.toList ++ ',' :: ' ' :: src.text.toList)
  | .cdq => ['c', 'd', 'q']
  | .idiv src => ['i', 'd', 'i', 'v'] ++ ' ' :: src.text.toList
  | .cmp lhs rhs => ['c', 'm', 'p'] ++ ' ' :: (lhs.text.toList ++ ',' :: ' ' :: rhs.text.toList)
  | .je target => ['j', 'e'] ++ ' ' :: target.toList
  | .jmp target => ['j', 'm', 'p'] ++ ' ' :: target.toList
  | .push src index =>
    ['p', 'u', 's', 'h'] ++ ' ' :: (src.text.toList ++ ' ' :: ([';', ' ', 'a', 'r', 'g'] ++
      Nat.toDigits 10 index))
  | .call name => ['c', 'a', 'l', 'l'] ++ ' ' :: name.toList
  | .freeStack bytes =>
    ['a', 'd', 'd'] ++ ' ' :: (['e', 's', 'p'] ++ ',' :: ' ' :: Nat.toDigits 10 bytes)
  | .ret => ['r', 'e', 't']

private theorem toList_text (i : Instr) : i.text.toList = i.line := by
  cases i <;> simp [text, line, toString, digits]

/-- The instruction with the given first word, in front of the rest of its line. -/
noncomputable def ofWord (word : String) (rest : List Char) : Instr :=
  let first := (cut ',' rest).1
  let second := (cut ',' rest).2.tail
  match word with
  | ";" => .comment (String.ofList rest)
  | "mov" => .mov (.read first) (.read second)
  | "add" =>
    if first = ['e', 's', 'p'] then .freeStack (decimalValue second)
    else .add (.read first) (.read second)
  | "sub" => .sub (.read first) (.read second)
  | "imul" => .imul (.read first) (.read second)
  | "cdq" => .cdq
  | "idiv" => .idiv (.read rest)
  | "cmp" => .cmp (.read first) (.read second)
  | "je" => .je (String.ofList rest)
  | "jmp" => .jmp (String.ofList rest)
  | "push" => .push (.read (cut ' ' rest).1) (decimalValue ((cut ' ' rest).2.drop 5))
  | "call" => .call (String.ofList rest)
  | _ => .ret

/-- The instruction on a line. A label is told by the colon at its end, any other instruction by its
first word. -/
noncomputable def read (line : List Char) : Instr :=
  if (cut ' ' line).1.getLast? = some ':' then .label (String.ofList (cut ' ' line).1.dropLast)
  else ofWord (String.ofList (cut ' ' line).1) (cut ' ' line).2

/-- An instruction is told by its first word, unless that ends with a colon. -/
private theorem read_words {word rest : List Char} (hblank : ' ' ∉ word)
    (hcolon : word.getLast? ≠ some ':') :
    read (word ++ ' ' :: rest) = ofWord (String.ofList word) rest := by
  rw [read, cut_append hblank, if_neg hcolon]

private theorem read_word {word : List Char} (hblank : ' ' ∉ word)
    (hcolon : word.getLast? ≠ some ':') :
    read word = ofWord (String.ofList word) [] := by
  rw [read, cut_of_notMem hblank, if_neg hcolon]

/-- The first operand of a line, with what stands behind it. -/
theorem cut_operand {o : Operand} (ho : o.Legible) {c : Char}
    (hc : (Lexeme.isWordPart c || Const.isPart c) = false) (rest : List Char) :
    cut c (o.text.toList ++ c :: rest) = (o.text.toList, rest) :=
  cut_append (Operand.notMem_text ho hc) rest

/-- **An instruction is read back from its line.** -/
theorem read_line {i : Instr} (hi : i.Legible) : read i.line = i := by
  have hcomma : (Lexeme.isWordPart ',' || Const.isPart ',') = false := by decide
  have hblank : (Lexeme.isWordPart ' ' || Const.isPart ' ') = false := by decide
  cases i with
  | label name =>
    have hname : ' ' ∉ name.toList ++ [':'] :=
      List.not_mem_append (notMem_of_mem_word hi (by decide)) (by decide)
    rw [line, read, cut_of_notMem hname]
    simp
  | cdq | ret =>
    rw [line, read_word (by decide) (by decide)]
    rfl
  | add dst src =>
    obtain ⟨⟨hdst, hne⟩, hsrc⟩ := hi
    -- a destination that is written `esp` is the variable
    have htext : dst.text.toList ≠ ['e', 's', 'p'] := fun h =>
      hne (Operand.text_injOn hdst freeName_esp (String.toList_injective h))
    rw [line, read_words (by decide) (by decide)]
    simp [ofWord, cut_operand hdst hcomma, htext, Operand.read_text hdst, Operand.read_text hsrc]
  | freeStack bytes =>
    have hcut : cut ',' (['e', 's', 'p'] ++ ',' :: ' ' :: Nat.toDigits 10 bytes) =
        (['e', 's', 'p'], ' ' :: Nat.toDigits 10 bytes) :=
      cut_append (by decide) _
    rw [line, read_words (by decide) (by decide)]
    simp only [ofWord, hcut]
    simp [Token.decimalValue_toDigits]
  | push src index =>
    rw [line, read_words (by decide) (by decide)]
    simp only [ofWord, cut_operand hi hblank, Operand.read_text hi]
    simp [Token.decimalValue_toDigits]
  | idiv src =>
    rw [line, read_words (by decide) (by decide)]
    simp [ofWord, Operand.read_text hi]
  | comment | je | jmp | call =>
    rw [line, read_words (by decide) (by decide)]
    simp [ofWord]
  | mov dst src | sub dst src | imul dst src | cmp dst src =>
    rw [line, read_words (by decide) (by decide)]
    simp [ofWord, cut_operand hi.1 hcomma, Operand.read_text hi.1, Operand.read_text hi.2]

/-- An instruction takes one line. -/
theorem newline_notMem_line {i : Instr} (hi : i.Legible) : '\n' ∉ i.line := by
  have hoperand {o : Operand} (ho : o.Legible) : '\n' ∉ o.text.toList :=
    Operand.notMem_text ho (by decide)
  have hword {name : String} (h : name.toList ∈ Lexical.word) : '\n' ∉ name.toList :=
    notMem_of_mem_word h (by decide)
  have hdigits (n : Nat) : '\n' ∉ Nat.toDigits 10 n := fun hmem =>
    absurd ((Lexical.mem_digits.mp (Token.toDigits_mem_digits n)).2 _ hmem) (by decide)
  cases i with
  | comment text => simpa [line] using show '\n' ∉ text.toList from hi
  | label | je | jmp | call => simpa [line] using hword hi
  | cdq | ret => decide
  | idiv src => simpa [line] using hoperand hi
  | push src index => simp [line, hoperand hi, hdigits]
  | freeStack bytes => simp [line, hdigits]
  | add dst src => simp [line, hoperand hi.1.1, hoperand hi.2]
  | mov dst src | sub dst src | imul dst src | cmp dst src =>
    simp [line, hoperand hi.1, hoperand hi.2]

end Instr

/-- All lines of a piece of code can be read back. -/
def Legible (code : List Instr) : Prop :=
  ∀ i ∈ code, i.Legible

private theorem legible_append {first second : List Instr} :
    Legible (first ++ second) ↔ Legible first ∧ Legible second :=
  List.forall_mem_append

private theorem legible_cons {i : Instr} {code : List Instr} :
    Legible (i :: code) ↔ i.Legible ∧ Legible code :=
  List.forall_mem_cons

private theorem legible_singleton {i : Instr} : Legible [i] ↔ i.Legible :=
  List.forall_mem_singleton

end Asm

/-! ### Generated code -/

private theorem labelName_mem_word (n : Nat) : (labelName n).toList ∈ Lexical.word := by
  have hname : (labelName n).toList = 'L' :: Nat.toDigits 10 n := by simp [labelName, digits]
  rw [hname]
  refine Lexical.cons_mem_word.mpr ⟨rfl, fun d hd => Lexical.isWordPart_iff.mpr (.inr ?_)⟩
  exact (Lexical.mem_digits.mp (Token.toDigits_mem_digits n)).2 d hd

namespace Expr

variable {e : Expr}

private theorem legible_operand (he : e.Spelled FreeName Const.IsNumber) (reg : Nat) :
    (e.operand reg).Legible := by
  induction e with
  | const value => trivial
  | var name type => exact spelled_var.mp he
  | arith op type lhs rhs => trivial
  | compare op lhs rhs ihl => exact ihl (spelled_compare.mp he).1

/-- An operator works on the register of its result. -/
theorem legible_arithCode (op : ArithOp) {lhs rhs : Operand} (hl : lhs.Legible) (hr : rhs.Legible)
    (result : Nat) : Legible (arithCode op lhs rhs (.reg result)) := by
  have hresult : (Operand.reg result).Legible := trivial
  refine legible_cons.mpr ⟨⟨hresult, hl⟩, ?_⟩
  cases op with
  | add => exact legible_singleton.mpr ⟨⟨hresult, by simp⟩, hr⟩
  | sub => exact legible_singleton.mpr ⟨hresult, hr⟩
  | mul => exact legible_singleton.mpr ⟨hresult, hr⟩
  | div =>
    simp only [legible_cons]
    exact ⟨⟨trivial, hl⟩, trivial, hr, ⟨hresult, trivial⟩, List.forall_mem_nil _⟩

/-- The code of an expression is legible, if its names are free and its constants are numbers. -/
private theorem legible_code (he : e.Spelled FreeName Const.IsNumber) (reg : Nat) :
    Legible (e.code reg) := by
  induction e generalizing reg with
  | const value => exact legible_singleton.mpr ⟨trivial, spelled_const.mp he⟩
  | var name type => exact List.forall_mem_nil _
  | arith op type lhs rhs ihl ihr =>
    obtain ⟨hl, hr⟩ := spelled_arith.mp he
    rw [code, legible_append, legible_append]
    exact ⟨⟨ihl hl _, ihr hr _⟩,
      legible_arithCode op (legible_operand hl _) (legible_operand hr _) _⟩
  | compare op lhs rhs ihl ihr =>
    obtain ⟨hl, hr⟩ := spelled_compare.mp he
    rw [code, legible_append, legible_append, legible_singleton]
    exact ⟨⟨ihl hl _, ihr hr _⟩, legible_operand hl _, legible_operand hr _⟩

private theorem legible_conditionCode (he : e.Spelled FreeName Const.IsNumber) (reg label : Nat) :
    Legible (e.conditionCode reg (labelName label)) := by
  rw [conditionCode, legible_append, legible_cons, legible_singleton]
  exact ⟨legible_code he reg, ⟨legible_operand he reg, trivial⟩, labelName_mem_word label⟩

/-- The value of an expression is moved away behind its code. -/
theorem legible_move (he : e.Spelled FreeName Const.IsNumber) (reg : Nat) {dst : Operand}
    (hdst : dst.Legible) : Legible (e.code reg ++ [.mov dst (e.operand reg)]) := by
  rw [legible_append, legible_singleton]
  exact ⟨legible_code he reg, hdst, legible_operand he reg⟩

end Expr

namespace Args

variable {args : List Expr}

private theorem legible_code (h : ∀ e ∈ args, e.Spelled FreeName Const.IsNumber) (reg : Nat) :
    Legible (code reg args) ∧ ∀ o ∈ operands reg args, o.Legible := by
  induction args generalizing reg with
  | nil => exact ⟨List.forall_mem_nil _, List.forall_mem_nil _⟩
  | cons e rest ih =>
    obtain ⟨he, hrest⟩ := List.forall_mem_cons.mp h
    obtain ⟨hcode, hoperands⟩ := ih hrest (reg + e.registers)
    exact ⟨legible_append.mpr ⟨e.legible_code he reg, hcode⟩,
      List.forall_mem_cons.mpr ⟨e.legible_operand he reg, hoperands⟩⟩

private theorem legible_callCode {name : String} (hname : name.toList ∈ Lexical.word)
    (h : ∀ e ∈ args, e.Spelled FreeName Const.IsNumber) (reg : Nat) :
    Legible (callCode reg name args) := by
  obtain ⟨hcode, hoperands⟩ := legible_code h reg
  rw [callCode, legible_append, legible_append, legible_cons, legible_singleton]
  refine ⟨⟨hcode, fun i hi => ?_⟩, hname, trivial⟩
  obtain ⟨k, hk, rfl⟩ := List.mem_mapIdx.mp hi
  exact hoperands _ (List.getElem_mem hk)

end Args

namespace Stmt

private theorem newline_notMem_comment {name : String} (h : name.toList ∈ Lexical.word)
    {text : String}
    (htext : '\n' ∉ text.toList) : '\n' ∉ (text ++ name).toList := by
  rw [String.toList_append]
  exact List.not_mem_append htext (notMem_of_mem_word h (by decide))

mutual

/-- The code of a statement can be read back, if its names are free. -/
theorem legible_code (reg label : Nat) : (s : Stmt) → Spelled FreeName Const.IsNumber s.nodes →
    Legible (s.code reg label)
  | .declare name _, h => by
    obtain ⟨hname, -⟩ := (spelled_cons.mp h).1
    exact legible_singleton.mpr
      (newline_notMem_comment (hname name List.mem_cons_self).1 (by decide))
  | .declareAssign name _ init, h => by
    obtain ⟨⟨hname, he⟩, -⟩ := spelled_cons.mp h
    exact init.legible_move (he init List.mem_cons_self) reg (hname name List.mem_cons_self)
  | .assign name value, h => by
    obtain ⟨⟨hname, he⟩, -⟩ := spelled_cons.mp h
    exact value.legible_move (he value List.mem_cons_self) reg (hname name List.mem_cons_self)
  | .ifThen e body, h => by
    obtain ⟨⟨-, he⟩, hbody⟩ := spelled_cons.mp h
    rw [code, legible_append, legible_append, legible_singleton]
    exact ⟨⟨e.legible_conditionCode (he e List.mem_cons_self) reg label,
      legible_codeAll _ _ body hbody⟩, labelName_mem_word label⟩
  | .ifElse e body otherwise, h => by
    obtain ⟨⟨-, he⟩, hbodies⟩ := spelled_cons.mp h
    obtain ⟨hbody, hotherwise⟩ := spelled_append.mp hbodies
    rw [code, legible_append, legible_append, legible_append, legible_append, legible_cons,
      legible_singleton, legible_singleton]
    exact ⟨⟨⟨⟨e.legible_conditionCode (he e List.mem_cons_self) reg label,
      legible_codeAll _ _ body hbody⟩, labelName_mem_word _, labelName_mem_word label⟩,
      legible_codeAll _ _ otherwise hotherwise⟩, labelName_mem_word _⟩
  | .loop e body, h => by
    obtain ⟨⟨-, he⟩, hbody⟩ := spelled_cons.mp h
    rw [code, List.cons_append, List.cons_append, legible_cons, legible_append, legible_append,
      legible_cons, legible_singleton]
    exact ⟨labelName_mem_word label, ⟨e.legible_conditionCode (he e List.mem_cons_self) reg _,
      legible_codeAll _ _ body hbody⟩, labelName_mem_word label, labelName_mem_word _⟩
  | .block body, h => legible_codeAll reg label body (spelled_cons.mp h).2
  | .function name _ _ body, h => by
    obtain ⟨⟨hname, -⟩, hbody⟩ := spelled_cons.mp h
    have hword := (hname name List.mem_cons_self).1
    rw [code, legible_append, legible_append, legible_cons, legible_singleton, legible_singleton]
    exact ⟨⟨⟨newline_notMem_comment hword (by decide), hword⟩,
      legible_codeAll reg label body hbody⟩, trivial⟩
  | .call name args, h => by
    obtain ⟨⟨hname, hargs⟩, -⟩ := spelled_cons.mp h
    exact Args.legible_callCode (hname name List.mem_cons_self).1 hargs reg
  | .ret value, h => by
    obtain ⟨⟨-, he⟩, -⟩ := spelled_cons.mp h
    have hvalue := he value List.mem_cons_self
    rw [code, legible_append, legible_cons, legible_singleton]
    exact ⟨value.legible_code hvalue reg, ⟨trivial, value.legible_operand hvalue reg⟩, trivial⟩

/-- The same for several statements. -/
theorem legible_codeAll (reg label : Nat) : (ss : List Stmt) →
    Spelled FreeName Const.IsNumber (nodesAll ss) → Legible (codeAll reg label ss)
  | [], _ => List.forall_mem_nil _
  | s :: rest, h => by
    obtain ⟨hs, hrest⟩ := spelled_append.mp h
    rw [codeAll, legible_append]
    exact ⟨legible_code reg label s hs, legible_codeAll _ _ rest hrest⟩

end

end Stmt

/-! ### Listings -/

namespace Assembly

/-- The program with the given listing: the title of the text section stands between the data names
and the instructions. -/
noncomputable def read (lines : List String) : Assembly where
  data := (cut "section .text" lines.tail).1.map fun l => String.ofList (cut ' ' l.toList).1
  text := (cut "section .text" lines.tail).2.map fun l => Instr.read l.toList

variable {a : Assembly}

/-- **A program is read back from its listing.** -/
theorem read_lines (hdata : ∀ name ∈ a.data, name.toList ∈ Lexical.word)
    (htext : Legible a.text) : read a.lines = a := by
  -- a data line ends in a digit, and the title does not
  have htitle : "section .text" ∉ a.data.map (· ++ " db 0") := fun h => by
    obtain ⟨name, -, hname⟩ := List.mem_map.mp h
    simpa using congrArg (·.toList.getLast?) hname
  have hcut : cut "section .text" a.lines.tail =
      (a.data.map (· ++ " db 0"), a.text.map Instr.text) :=
    cut_append htitle _
  have hnames : ∀ name ∈ a.data,
      String.ofList (cut ' ' (name ++ " db 0").toList).1 = name := fun name hname => by
    have hblank : ' ' ∉ name.toList := notMem_of_mem_word (hdata name hname) (by decide)
    rw [String.toList_append, show " db 0".toList = ' ' :: ['d', 'b', ' ', '0'] from rfl,
      cut_append hblank, String.ofList_toList]
  have hinstrs : ∀ i ∈ a.text, Instr.read i.text.toList = i := fun i hi => by
    rw [Instr.toList_text, Instr.read_line (htext i hi)]
  rw [read, hcut]
  simp only [List.map_map, Function.comp_def]
  rw [List.map_congr_left hnames, List.map_congr_left hinstrs, List.map_id', List.map_id']

/-- The lines of a legible listing are single lines. -/
private theorem newline_notMem_lines (hdata : ∀ name ∈ a.data, name.toList ∈ Lexical.word)
    (htext : Legible a.text) : ∀ l ∈ a.lines, '\n' ∉ l.toList := by
  refine List.forall_mem_append.mpr ⟨List.forall_mem_cons.mpr ⟨by decide, ?_⟩,
    List.forall_mem_cons.mpr ⟨by decide, ?_⟩⟩
  · intro l hl
    obtain ⟨name, hname, rfl⟩ := List.mem_map.mp hl
    rw [String.toList_append]
    exact List.not_mem_append (notMem_of_mem_word (hdata name hname) (by decide)) (by decide)
  · intro l hl
    obtain ⟨i, hi, rfl⟩ := List.mem_map.mp hl
    rw [Instr.toList_text]
    exact Instr.newline_notMem_line (htext i hi)

end Assembly

namespace Program

/-- The assembly of a program is legible, if its names are free and its constants are numbers. -/
private theorem legible_assembly {p : Program} (hnames : ∀ name ∈ p.identifiers, FreeName name)
    (hconstants : ∀ value ∈ p.constants, value.IsNumber) :
    (∀ name ∈ p.assembly.data, name.toList ∈ Lexical.word) ∧ Legible p.assembly.text := by
  have hspelled := spelled_statements hnames hconstants
  refine ⟨fun name hname => ?_, Stmt.legible_codeAll 0 0 p.body hspelled⟩
  obtain ⟨s, hs, hdeclared⟩ := (mem_dataNames_iff p name).mp hname
  have hnode : s ∈ p.statements := Stmt.mem_nodesAll_iff.mpr (.inl hs)
  have hown : name ∈ s.ownNames := by
    cases s <;> simp_all [Stmt.declared?, Stmt.ownNames]
  exact ((hspelled s hnode).1 name hown).1

/-- **The listing determines the program**, data names and instructions, if no identifier is
written like something else and no constant is a not-a-number. -/
theorem assembly_eq_of_listing_eq {p q : Program} (hp : ∀ name ∈ p.identifiers, FreeName name)
    (hpc : ∀ value ∈ p.constants, value.IsNumber) (hq : ∀ name ∈ q.identifiers, FreeName name)
    (hqc : ∀ value ∈ q.constants, value.IsNumber)
    (h : p.assembly.listing = q.assembly.listing) : p.assembly = q.assembly := by
  obtain ⟨hdata, htext⟩ := legible_assembly hp hpc
  obtain ⟨hdata', htext'⟩ := legible_assembly hq hqc
  have hlines : p.assembly.lines = q.assembly.lines :=
    Text.join_injective (Assembly.newline_notMem_lines hdata htext)
      (Assembly.newline_notMem_lines hdata' htext') h
  calc p.assembly = Assembly.read p.assembly.lines := (Assembly.read_lines hdata htext).symm
    _ = Assembly.read q.assembly.lines := by rw [hlines]
    _ = q.assembly := Assembly.read_lines hdata' htext'

/-- A function adds a half to a variable, and is called. Neither has the name of a register. -/
def addHalf (type : Ty) : Program :=
  ⟨[.declare "r1x" type,
    .function "esp" type [⟨"by", type⟩]
      [.assign "r1x" (.arith .add .float (.var "r1x" type) (.const (.float ⟨0x3FE0000000000000⟩)))],
    .call "esp" [.var "r1x" type]]⟩

/-- Types are not in the listing, nor in the code. -/
theorem addHalf_listing :
    addHalf .int ≠ addHalf .float ∧
      (addHalf .int).assembly.listing = (addHalf .float).assembly.listing ∧
      (addHalf .int).assembly = (addHalf .float).assembly := by
  have hnames (type : Ty) : ∀ name ∈ (addHalf type).identifiers, FreeName name := by
    have hword : FreeName "r1x" := ⟨Token.cons_mem_word_of_all (by decide), by decide⟩
    have hby : FreeName "by" := ⟨Token.cons_mem_word_of_all (by decide), by decide⟩
    have hall : (addHalf type).identifiers = ["r1x", "esp", "by", "r1x", "esp", "r1x", "r1x"] := rfl
    rw [hall]
    simp only [List.forall_mem_cons]
    exact ⟨hword, freeName_esp, hby, hword, freeName_esp, hword, hword, List.forall_mem_nil _⟩
  have hconstants (type : Ty) : ∀ value ∈ (addHalf type).constants, value.IsNumber := by
    have hall : (addHalf type).constants = [.float ⟨0x3FE0000000000000⟩] := rfl
    rw [hall, List.forall_mem_singleton]
    decide
  have hlisting : (addHalf .int).assembly.listing = (addHalf .float).assembly.listing := rfl
  exact ⟨by simp [addHalf], hlisting,
    assembly_eq_of_listing_eq (hnames .int) (hconstants .int) (hnames .float) (hconstants .float)
      hlisting⟩

end Program

end TinyImp
