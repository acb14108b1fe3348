import MarkupTrace.Proofs.TreeNodes

/-!
# Printed helpers

A helper prints as an arrow function, in which the stack is referred to by its generated name. The
function has parameters and constants of its own. Whether one of them takes the reference is read off
the printed text: it binds the words before the arrow and those behind `const`.
-/

namespace MarkupTrace.Source

/-! ## Words of a text -/

/-- The word under way, if there is one. -/
def wordOf (current : List Char) : List String :=
  if current.isEmpty then [] else [String.ofList current]

/-- The runs of characters of identifiers, the first of which is under way. -/
def wordsFrom (current : List Char) : List Char → List String
  | [] => wordOf current
  | c :: cs =>
    if isIdentifierPart c then wordsFrom (current ++ [c]) cs else wordOf current ++ wordsFrom [] cs

def words (text : String) : List String := wordsFrom [] text.toList

def beforeArrow : List Char → List Char
  | '=' :: '>' :: _ => []
  | c :: cs => c :: beforeArrow cs
  | [] => []

/-- The words that come right behind the word `const`. -/
def behindConst : List String → List String
  | a :: b :: rest => if a = "const" then b :: behindConst (b :: rest) else behindConst (b :: rest)
  | _ => []

/-- The parameters and constants of an arrow function that is given as text. -/
def boundWords (text : String) : List String :=
  wordsFrom [] (beforeArrow text.toList) ++ behindConst (words text)

/-- A word is read to its end. -/
theorem wordsFrom_run {cs : List Char} (h : ∀ c ∈ cs, isIdentifierPart c = true)
    (current rest : List Char) : wordsFrom current (cs ++ rest) = wordsFrom (current ++ cs) rest := by
  induction cs generalizing current with
  | nil => rw [List.nil_append, List.append_nil]
  | cons c cs ih =>
    rw [List.forall_mem_cons] at h
    rw [List.cons_append, wordsFrom, if_pos h.1, ih h.2, List.append_assoc, List.singleton_append]

/-- An identifier that ends before another character is a word. -/
theorem wordsFrom_identifier {s : String} (hs : IsIdentifier s) {rest : List Char}
    (hrest : ∀ c ∈ rest.head?, isIdentifierPart c = false) :
    wordsFrom [] (s.toList ++ rest) = s :: wordsFrom [] rest := by
  obtain ⟨x, xs, hlist, hx, hxs⟩ := hs
  have hall : ∀ y ∈ s.toList, isIdentifierPart y = true := by
    rw [hlist]
    refine List.forall_mem_cons.mpr ⟨?_, hxs⟩
    rw [isIdentifierPart, hx, Bool.true_or]
  have hword : wordOf s.toList = [s] := by
    rw [wordOf, hlist, List.isEmpty_cons, if_neg Bool.false_ne_true, ← hlist, String.ofList_toList]
  rw [wordsFrom_run hall, List.nil_append]
  cases rest with
  | nil => rw [wordsFrom, hword, wordsFrom, wordOf, List.isEmpty_nil, if_pos rfl]
  | cons c rest =>
    have hc := hrest c rfl
    rw [wordsFrom, wordsFrom, hc, if_neg Bool.false_ne_true, hword]
    rfl

/-! ## Helpers as text -/

/-- The printed helpers' own parameters and constants. -/
def helperLocals : List String :=
  ["source", "location", "value", "isExpression", "isLast", "parent"]

section

variable {stack : String}

theorem print_recordParent (stack : String) : (Helper.recordParent stack).print.toList =
    "(source) => \x7b ".toList ++
      (stack.toList ++ ".unshift(source); return source; \x7d".toList) := by
  have hprint : (Helper.recordParent stack).print =
      "(source) => \x7b " ++ stack ++ ".unshift(source); return source; \x7d" := rfl
  rw [hprint, String.toList_append, String.toList_append, List.append_assoc]

theorem print_recordExpression (stack : String) : (Helper.recordExpression stack).print.toList =
    "(location, value, isExpression, isLast) => \x7b const parent = ".toList ++ (stack.toList ++
      ("[0]; if (parent) \x7b (parent.expressions = parent.expressions || []).push(\x7b ".toList ++
        ("location, value, isExpression \x7d); if (isLast) ".toList ++ (stack.toList ++
          ".shift(); \x7d return value; \x7d".toList)))) := by
  have hprint : (Helper.recordExpression stack).print =
      "(location, value, isExpression, isLast) => \x7b const parent = " ++ stack ++
        "[0]; if (parent) \x7b (parent.expressions = parent.expressions || []).push(\x7b " ++
        "location, value, isExpression \x7d); if (isLast) " ++ stack ++
        ".shift(); \x7d return value; \x7d" := rfl
  simp only [hprint, String.toList_append, List.append_assoc]

theorem words_recordParent (h : IsIdentifier stack) : words (Helper.recordParent stack).print =
    ["source", stack, "unshift", "source", "return", "source"] := by
  have hfront : ∀ rest, wordsFrom [] ("(source) => \x7b ".toList ++ rest) =
      "source" :: wordsFrom [] rest := fun _ => rfl
  have hback : wordsFrom [] ".unshift(source); return source; \x7d".toList =
      ["unshift", "source", "return", "source"] := rfl
  have hpoint : ∀ c ∈ ".unshift(source); return source; \x7d".toList.head?,
      isIdentifierPart c = false := by
    rintro c ⟨⟩
    rfl
  rw [words, print_recordParent, hfront, wordsFrom_identifier h hpoint, hback]

theorem words_recordExpression (h : IsIdentifier stack) :
    words (Helper.recordExpression stack).print =
      ["location", "value", "isExpression", "isLast", "const", "parent", stack, "0", "if", "parent",
        "parent", "expressions", "parent", "expressions", "push", "location", "value",
        "isExpression", "if", "isLast", stack, "shift", "return", "value"] := by
  have hfront : ∀ rest, wordsFrom []
      ("(location, value, isExpression, isLast) => \x7b const parent = ".toList ++ rest) =
        ["location", "value", "isExpression", "isLast", "const", "parent"] ++ wordsFrom [] rest :=
    fun _ => rfl
  have hparent : ∀ rest, wordsFrom [] ("[0]; if (parent) \x7b ".toList ++
      ("(parent.expressions = parent.expressions || []).push(\x7b ".toList ++ rest)) =
        ["0", "if", "parent", "parent", "expressions", "parent", "expressions", "push"] ++
          wordsFrom [] rest := fun _ => rfl
  have hpushed : ∀ rest, wordsFrom []
      ("location, value, isExpression \x7d); if (isLast) ".toList ++ rest) =
        ["location", "value", "isExpression", "if", "isLast"] ++ wordsFrom [] rest := fun _ => rfl
  have hback : wordsFrom [] ".shift(); \x7d return value; \x7d".toList =
      ["shift", "return", "value"] := rfl
  have hbracket : ∀ rest, ∀ c ∈ ("[0]; if (parent) \x7b ".toList ++ rest : List Char).head?,
      isIdentifierPart c = false := by
    rintro rest c ⟨⟩
    rfl
  have hpoint : ∀ c ∈ ".shift(); \x7d return value; \x7d".toList.head?,
      isIdentifierPart c = false := by
    rintro c ⟨⟩
    rfl
  have hsplit :
      "[0]; if (parent) \x7b (parent.expressions = parent.expressions || []).push(\x7b ".toList =
        "[0]; if (parent) \x7b ".toList ++
          "(parent.expressions = parent.expressions || []).push(\x7b ".toList := rfl
  rw [words, print_recordExpression, hsplit, List.append_assoc, hfront,
    wordsFrom_identifier h (hbracket _), hparent, hpushed, wordsFrom_identifier h hpoint, hback]
  rfl

/-- The helper that records a parent binds its parameter. -/
theorem boundWords_recordParent (h : IsIdentifier stack) (hconst : stack ≠ "const") :
    boundWords (Helper.recordParent stack).print = ["source"] := by
  have hparams : wordsFrom [] (beforeArrow (Helper.recordParent stack).print.toList) =
      ["source"] := by
    rw [print_recordParent]
    rfl
  rw [boundWords, hparams, words_recordParent h]
  simp [behindConst, hconst]

/-- The helper that records an expression binds its parameters and the parent. -/
theorem boundWords_recordExpression (h : IsIdentifier stack) (hconst : stack ≠ "const") :
    boundWords (Helper.recordExpression stack).print =
      ["location", "value", "isExpression", "isLast", "parent"] := by
  have hparams : wordsFrom [] (beforeArrow (Helper.recordExpression stack).print.toList) =
      ["location", "value", "isExpression", "isLast"] := by
    rw [print_recordExpression]
    rfl
  rw [boundWords, hparams, words_recordExpression h]
  simp [behindConst, hconst]

/-- One of the printed helpers binds the stack's name just if it is one of their locals. -/
theorem stack_bound_in_helpers_iff (h : IsName stack) :
    (∃ x ∈ [Helper.recordParent stack, .recordExpression stack], stack ∈ boundWords x.print) ↔
      stack ∈ helperLocals := by
  have hconst : stack ≠ "const" := by
    rintro rfl
    exact absurd h.2 (by decide)
  have hlocals : helperLocals = ["source"] ++
      ["location", "value", "isExpression", "isLast", "parent"] := rfl
  rw [hlocals, List.mem_append, ← boundWords_recordParent h.1 hconst,
    ← boundWords_recordExpression h.1 hconst]
  simp

/-- The printed helpers refer to the stack, and unless it is named like one of their locals, none of
them binds its name. -/
theorem stack_free_in_helpers (h : IsName stack) (hlocal : stack ∉ helperLocals) :
    ∀ x ∈ [Helper.recordParent stack, .recordExpression stack],
      stack ∈ words x.print ∧ stack ∉ boundWords x.print := by
  intro x hx
  refine ⟨?_, fun hbound => hlocal ((stack_bound_in_helpers_iff h).mp ⟨x, hx, hbound⟩)⟩
  rcases List.mem_pair.mp hx with rfl | rfl
  · rw [words_recordParent h.1]
    simp
  · rw [words_recordExpression h.1]
    simp

end

end MarkupTrace.Source
