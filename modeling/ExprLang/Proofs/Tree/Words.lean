import ExprLang.Proofs.Lexer.Quotes
import ExprLang.Proofs.Tree.Values
import ExprLang.Proofs.Tree.Written

/-!
# Words of trees

The words of a tree's text can be told from the tree: each piece of the text is
read as the words it was written for, whatever follows it.

Main definitions:

- Definition {lit}`Tree.words`: the words of a tree.
- Definition {lit}`IsMark`: the spelling of an operator.
- Definition {lit}`Lexes`: a text that is read as some words wherever it stands.

Main results:

- Theorem {lit}`Tree.Written.lexes`: the text of a tree is read as its words.
-/

namespace ExprLang

/-- The word that a text is, if it is one. -/
def Word.ofText (text : String) : Word := ⟨.ofWord text, text⟩

namespace Tree

/-! ## Pieces -/

/-- Words in parentheses. -/
def groupedWords (ws : List Word) : List Word :=
  .mark .leftParen :: (ws ++ [.mark .rightParen])

/-- The words of a tree that is followed by more of its parent. -/
def operandWords (tree : Tree) (ws : List Word) : List Word :=
  if tree.isLoose then groupedWords ws else ws

/-- The words of a tree after a sign, which must not become part of a number. -/
def signedWords (tree : Tree) (ws : List Word) : List Word :=
  if tree.isNumber then groupedWords ws else ws

/-- The words of a tree as the body of a function. -/
def bodyWords (tree : Tree) (ws : List Word) : List Word :=
  if tree.isBlock then ws else .mark .assign :: (ws ++ [.mark .semicolon])

/-- Lists of words, separated by commas. -/
def commaWords (lists : List (List Word)) : List Word :=
  [Word.mark .comma].intercalate lists

@[simp] theorem commaWords_nil : commaWords [] = [] := rfl

@[simp] theorem commaWords_singleton (ws : List Word) : commaWords [ws] = ws := by
  simp [commaWords, List.intercalate]

@[simp] theorem commaWords_cons_cons (ws vs : List Word) (lists : List (List Word)) :
    commaWords (ws :: vs :: lists) = ws ++ .mark .comma :: commaWords (vs :: lists) := by
  simp [commaWords, List.intercalate]

/-- Words in braces. -/
def bracedWords (ws : List Word) : List Word :=
  .mark .leftBrace :: (ws ++ [.mark .rightBrace])

/-- A colon and a type, if there is one. -/
def typeWords (type : Option String) : List Word :=
  type.elim [] fun text => .mark .colon :: sourceWords text.toList

/-- Words between quotes. -/
def quotedWords (ws : List Word) : List Word :=
  ⟨.stringStart, "\""⟩ :: (ws ++ [⟨.stringEnd, "\""⟩])

/-- The words of a literal. -/
def literalWords : Literal → List Word
  | .string text => quotedWords (textWords text.toList)
  | value =>
    (if value.isNegative then [Word.mark .minus] else []) ++
      [⟨value.kind, String.ofList value.unsigned⟩]

/-- The words of the rest of a template, given the text that stands before it, and for every
part its text or its words. -/
def segmentWords (text : List Char) : List (Option String × List Word) → List Word
  | [] => textWords text
  | (some more, _) :: parts => segmentWords (text ++ more.toList) parts
  | (none, ws) :: parts =>
    textWords text ++ ⟨.templateStart, "\\\x7b"⟩ :: (ws ++ ⟨.templateEnd, "\x7d"⟩ ::
      segmentWords [] parts)

/-- What stands before the body of a function. -/
def headWords (name : String) (isInfix : Bool) (arguments : List (List Word))
    (returnType : Option String) : List Word :=
  (if isInfix then [Word.ofText "infix"] else []) ++
    Word.ofText "fun" :: Word.ofText name ::
      (groupedWords (commaWords arguments) ++ typeWords returnType)

/-! ## Words of trees -/

/-- The words of a tree. -/
def words : Tree → List Word
  | compilationUnit imports declarations =>
    (imports.map words ++ declarations.map words).flatten
  | importPath path entries =>
    Word.ofText "import" :: (quotedWords (textWords path.toList) ++
      ((if entries.isEmpty then [] else bracedWords (commaWords (entries.map words))) ++
        [.mark .semicolon]))
  | importEntry name rename =>
    Word.ofText name :: rename.elim [] fun text => [Word.ofText "as", Word.ofText text]
  | block statements => bracedWords (statements.map words).flatten
  | literal value => literalWords value
  | stringTemplate parts =>
    quotedWords (segmentWords [] (parts.map fun part => (part.stringText?, words part)))
  | reference name => [Word.ofText name]
  | unary operator operand =>
    groupedWords (.mark operator.kind :: signedWords operand (words operand))
  | binary left operator right =>
    groupedWords (operandWords left (words left) ++ .mark operator.kind :: words right)
  | assignment target operator value =>
    groupedWords (operandWords target (words target) ++ .mark operator.kind :: words value)
  | memberAccess receiver member =>
    operandWords receiver (words receiver) ++ [.mark .dot, Word.ofText member]
  | function name isInfix arguments returnType body =>
    headWords name isInfix (arguments.map words) returnType ++ bodyWords body (words body)
  | namedInvocation name arguments =>
    Word.ofText name :: groupedWords (commaWords (arguments.map words))
  | anonymousInvocation target arguments =>
    operandWords target (words target) ++ groupedWords (commaWords (arguments.map words))
  | infixInvocation left name right =>
    groupedWords (operandWords left (words left) ++ Word.ofText name :: words right)
  | basicArgument name type => Word.ofText name :: typeWords type
  | defaultArgument name type default =>
    Word.ofText name :: (typeWords type ++ .mark .assign :: words default)
  | patternArgument pattern => words pattern
  | conditional condition thenBranch none =>
    Word.ofText "if" :: (groupedWords (words condition) ++ words thenBranch)
  | conditional condition thenBranch (some elseBranch) =>
    Word.ofText "if" :: (groupedWords (words condition) ++
      (operandWords thenBranch (words thenBranch) ++ Word.ofText "else" :: words elseBranch))
  | localVariable name isMutable type none =>
    Word.ofText (if isMutable then "var" else "val") :: Word.ofText name ::
      (typeWords type ++ [.mark .semicolon])
  | localVariable name isMutable type (some initializer) =>
    Word.ofText (if isMutable then "var" else "val") :: Word.ofText name ::
      (typeWords type ++ .mark .assign :: (words initializer ++ [.mark .semicolon]))
  | returnStatement none => [Word.ofText "return", .mark .semicolon]
  | returnStatement (some value) =>
    Word.ofText "return" :: (words value ++ [.mark .semicolon])
  | expressionStatement expression => words expression ++ [.mark .semicolon]

end Tree

open Reference ExprLang.Tree

/-! ## Marks -/

/-- A text is the spelling of a kind of operator other than a brace. -/
abbrev IsMark (text : String) (kind : TokenKind) : Prop :=
  (text, kind) ∈ TokenKind.operators ∧ kind ≠ .leftBrace ∧ kind ≠ .rightBrace

/-- Binary operators are marks. -/
theorem BinaryOperator.isMark (operator : BinaryOperator) :
    IsMark operator.symbol operator.kind := by
  cases operator <;> decide

/-- Assignment operators are marks. -/
theorem AssignmentOperator.isMark (operator : AssignmentOperator) :
    IsMark operator.symbol operator.kind := by
  cases operator <;> decide

/-- Unary operators are marks. -/
theorem UnaryOperator.isMark (operator : UnaryOperator) :
    IsMark operator.symbol operator.kind := by
  cases operator <;> decide

/-! ## Texts that are read as words -/

/-- A text is read as some words wherever code is read and no word goes on after it. -/
def Lexes (cs : List Char) (ws : List Word) : Prop :=
  ∀ ⦃stack rest⦄, InCode stack → boundary rest = true →
    reference.words stack (cs ++ rest) = ws ++ reference.words stack rest

namespace Lexes

variable {a b cs : List Char} {wa wb ws : List Word}

/-- No text. -/
theorem nil : Lexes [] [] := fun _ _ _ _ => rfl

/-- A text after which no word goes on, and another text. -/
theorem append (ha : Lexes a wa) (hb : Lexes b wb)
    (hab : ∀ rest, boundary rest = true → boundary (b ++ rest) = true) :
    Lexes (a ++ b) (wa ++ wb) := by
  intro stack rest h hrest
  rw [List.append_assoc, ha h (hab rest hrest), hb h hrest, List.append_assoc]

/-- A blank and a text. -/
theorem blank (h : Lexes cs ws) {c : Char} (hc : c = ' ' ∨ c = '\n') : Lexes (c :: cs) ws := by
  intro stack rest hs hrest
  rw [List.cons_append, words_blank hs (by rcases hc with rfl | rfl <;> rfl), h hs hrest]

/-- A separator and a text. -/
theorem separator (h : Lexes cs ws) {c : Char} (hc : separatorKind c ≠ .unexpectedCharacter) :
    Lexes (c :: cs) (.mark (separatorKind c) :: ws) := by
  intro stack rest hs hrest
  rw [List.cons_append, words_separator hs hc, h hs hrest, List.cons_append]

/-- A word. -/
theorem word {text : String} (h : IsWord text.toList) : Lexes text.toList [Word.ofText text] :=
  fun _ _ hs hrest => words_word hs h hrest

/-- An operator and a text that does not go on with it. -/
theorem operator (h : Lexes cs ws) {text : String} {kind : TokenKind} (ht : IsMark text kind)
    (hplain : ∀ rest, plain (cs ++ rest) = true) :
    Lexes (text.toList ++ cs) (.mark kind :: ws) := by
  intro stack rest hs hrest
  obtain ⟨hop, hopen, hclose⟩ := ht
  have hmark : Word.mark kind = ⟨kind, text⟩ := by
    have hall : ∀ op ∈ TokenKind.operators, Word.mark op.2 = ⟨op.2, op.1⟩ := by decide
    exact hall _ hop
  rw [List.append_assoc, words_operator hs hop hopen hclose (.inr (hplain rest)), h hs hrest, hmark,
    List.cons_append]

/-- An operator between blanks and a text. -/
theorem spaced (h : Lexes cs ws) {text : String} {kind : TokenKind} (ht : IsMark text kind) :
    Lexes (' ' :: (text.toList ++ ' ' :: cs)) (.mark kind :: ws) :=
  blank (operator (h.blank (.inl rfl)) ht fun _ => rfl) (.inl rfl)

/-- An equals sign between blanks and a text. -/
theorem assigned (h : Lexes cs ws) : Lexes ([' ', '=', ' '] ++ cs) (.mark .assign :: ws) :=
  @spaced cs ws h "=" .assign (by decide)

/-- A word, a blank and a text. -/
theorem keyword {text : String} (ht : IsWord text.toList) (h : Lexes cs ws) :
    Lexes (text.toList ++ ' ' :: cs) (Word.ofText text :: ws) :=
  (word ht).append (h.blank (.inl rfl)) fun _ _ => rfl

/-- A text and a semicolon. -/
theorem semicolon (h : Lexes cs ws) : Lexes (cs ++ [';']) (ws ++ [.mark .semicolon]) :=
  h.append (separator (c := ';') nil (by decide)) fun _ _ => rfl

/-- A text in parentheses. -/
theorem grouped (h : Lexes cs ws) : Lexes (grouped cs) (groupedWords ws) :=
  separator (c := '(') (h.append (separator (c := ')') nil (by decide)) fun _ _ => rfl)
    (by decide)

/-- The text of a tree that is followed by more of its parent. -/
theorem operand {tree : Tree} (h : Lexes cs ws) :
    Lexes (tree.operandChars cs) (tree.operandWords ws) := by
  unfold operandChars operandWords
  split
  · exact h.grouped
  · exact h

/-- Texts separated by commas. -/
theorem commas {texts : List (List Char)} {lists : List (List Word)}
    (h : List.Forall₂ Lexes texts lists) :
    Lexes ([',', ' '].intercalate texts) (commaWords lists) := by
  induction h with
  | nil => exact nil
  | @cons text list texts lists ht h ih =>
    cases h with
    | nil => simpa [List.intercalate] using ht
    | @cons other otherWords others otherLists =>
      have hall := ht.append (separator (c := ',') (ih.blank (.inl rfl)) (by decide)) fun _ _ => rfl
      rw [commaWords_cons_cons]
      simpa [List.intercalate, separatorKind] using hall

/-- Texts in parentheses, separated by commas. -/
theorem listed {texts : List (List Char)} {lists : List (List Word)}
    (h : List.Forall₂ Lexes texts lists) :
    Lexes (listedChars texts) (groupedWords (commaWords lists)) :=
  (commas h).grouped

/-- The texts of trees. -/
theorem map_chars {trees : List Tree} (h : ∀ tree ∈ trees, Lexes tree.chars tree.words) :
    List.Forall₂ Lexes (trees.map chars) (trees.map Tree.words) :=
  List.forall₂_map_left_iff.2 (List.forall₂_map_right_iff.2 (List.forall₂_same.2 h))

/-- Texts separated by blanks. -/
theorem blanks {texts : List (List Char)} {lists : List (List Word)} {c : Char}
    (hc : c = ' ' ∨ c = '\n') (h : List.Forall₂ Lexes texts lists) :
    Lexes ([c].intercalate texts) lists.flatten := by
  induction h with
  | nil => exact nil
  | @cons text list texts lists ht h ih =>
    cases h with
    | nil => simpa [List.intercalate] using ht
    | @cons other otherWords others otherLists =>
      have hall := ht.append (ih.blank hc) fun _ _ => by rcases hc with rfl | rfl <;> rfl
      simpa [List.intercalate] using hall

/-- A text in braces. -/
theorem braces (h : Lexes cs ws) :
    Lexes (['\x7b', ' '] ++ cs ++ [' ', '\x7d']) (bracedWords ws) := by
  intro stack rest hs hrest
  have hin := inCode_opened stack
  simp only [List.append_assoc, List.cons_append, List.nil_append]
  rw [words_leftBrace hs, words_blank hin rfl, h hin rfl, words_blank hin rfl,
    words_rightBrace]
  simp [bracedWords]

/-- Texts in braces. -/
theorem braced {texts : List (List Char)} {lists : List (List Word)}
    (h : List.Forall₂ Lexes texts lists) :
    Lexes (bracedChars texts) (bracedWords lists.flatten) := by
  cases h with
  | nil =>
    intro stack rest hs hrest
    have hin := inCode_opened stack
    simp only [bracedChars, List.isEmpty_nil, if_true, List.cons_append, List.nil_append]
    rw [words_leftBrace hs, words_blank hin rfl, words_rightBrace]
    rfl
  | cons hfirst hothers => exact braces (blanks (.inl rfl) (.cons hfirst hothers))

/-- The body of a string, which is read as some words up to the closing quote. -/
theorem quotes {body : List Char} {ws : List Word}
    (h : ∀ (stack : StateStack) rest, reference.words (stack.push string) (body ++ '"' :: rest) =
      ws ++ reference.words (stack.push string) ('"' :: rest)) :
    Lexes ('"' :: (body ++ ['"'])) (quotedWords ws) := by
  intro stack rest hs hrest
  rw [List.cons_append, List.append_assoc, words_stringStart hs, List.singleton_append,
    h stack rest, words_stringEnd]
  simp [quotedWords]

/-- A string. -/
theorem text (cs : List Char) :
    Lexes ('"' :: (Text.escape cs ++ ['"'])) (quotedWords (textWords cs)) :=
  quotes fun stack _ => words_text stack cs rfl

/-- The rest of a template, before which some text stands. -/
theorem segments {parts : List Tree} (text : List Char)
    (h : ∀ part ∈ parts, Lexes part.chars part.words) (stack : StateStack) (rest : List Char) :
    reference.words (stack.push string) (Text.escape text ++
        ((parts.map fun part => part.partChars part.chars).flatten ++ '"' :: rest)) =
      segmentWords text (parts.map fun part => (part.stringText?, part.words)) ++
        reference.words (stack.push string) ('"' :: rest) := by
  induction parts generalizing text with
  | nil => exact words_text stack text rfl
  | cons part parts ih =>
    have hpart := h part (List.mem_cons_self ..)
    have ih := fun text => ih text fun other ho => h other (List.mem_cons_of_mem _ ho)
    rw [List.map_cons, List.map_cons, List.flatten_cons, List.append_assoc]
    cases htext : part.stringText? with
    | some more =>
      have hchars : part.partChars part.chars = Text.escape more.toList := by
        simp [partChars, htext]
      have happend : Text.escape (text ++ more.toList) =
          Text.escape text ++ Text.escape more.toList := List.flatMap_append
      rw [hchars, segmentWords, ← ih, happend, List.append_assoc]
    | none =>
      have hchars : part.partChars part.chars = '\\' :: '\x7b' :: (part.chars ++ ['\x7d']) := by
        simp [partChars, htext]
      have hplaceholder : reference.words ((stack.push string).push template)
          (part.chars ++ '\x7d' :: ((parts.map fun part => part.partChars part.chars).flatten ++
            '"' :: rest)) = part.words ++ ⟨.templateEnd, "\x7d"⟩ ::
              (segmentWords [] (parts.map fun part => (part.stringText?, part.words)) ++
                reference.words (stack.push string) ('"' :: rest)) := by
        rw [hpart (inCode_template _) rfl, words_templateEnd]
        exact congrArg (part.words ++ _ :: ·) (ih [])
      rw [hchars, segmentWords]
      simp only [List.cons_append, List.nil_append, List.append_assoc]
      rw [words_text stack text rfl, words_templateStart, hplaceholder]

/-- A text that is read as some words has those words. -/
theorem sourceWords_eq (h : Lexes cs ws) : sourceWords cs = ws := by
  have hws := @h (.ofRoot code) [] inCode_ofRoot rfl
  rwa [List.append_nil, Grammar.words_nil, List.append_nil] at hws

/-- A dot and a word. -/
theorem dot {text : String} (h : IsWord text.toList) :
    Lexes ('.' :: text.toList) [.mark .dot, Word.ofText text] :=
  separator (c := '.') (word h) (by decide)

/-- What precedes a dot and a word goes on with neither a word nor a number. -/
theorem boundary_dot {text : List Char} (h : IsWord text) (rest : List Char) :
    boundary ('.' :: text ++ rest) = true := by
  cases text with
  | nil => exact h.elim
  | cons c cs =>
    have hdigit : Decimal.isDigit c = false := by
      have hall : ∀ n < 128, wordStart.contains (Char.ofNat n) = true →
          Decimal.isDigit (Char.ofNat n) = false := by decide
      exact forall_ascii (p := fun c => wordStart.contains c = true → Decimal.isDigit c = false)
        hall (toNat_lt_of_wordRest (wordRest_of_wordStart h.1)) h.1
    have hpoint : wordRest.contains '.' = false := rfl
    simp [boundary, hdigit, hpoint]

/-- A type. -/
theorem type {text : String} (h : IsType text) : Lexes text.toList (sourceWords text.toList) := by
  induction h with
  | name h =>
    have hword := word h.isWord
    rwa [hword.sourceWords_eq]
  | @dot path text hp h ih =>
    have hdot : Lexes (path ++ "." ++ text).toList
        (sourceWords path.toList ++ [.mark .dot, Word.ofText text]) := by
      rw [String.toList_append, String.toList_append, List.append_assoc]
      exact append ih (dot h.isWord) fun rest _ => boundary_dot h.isWord rest
    rwa [hdot.sourceWords_eq]

/-- A colon and a type, if there is one. -/
theorem typeSuffix {type : Option String} (h : ∀ text, type = some text → IsType text) :
    Lexes (typeChars type) (typeWords type) := by
  cases type with
  | none => exact nil
  | some text =>
    exact separator (c := ':') ((Lexes.type (h text rfl)).blank (.inl rfl)) (by decide)

/-- A text with a colon and a type goes on with no word. -/
theorem boundary_typeSuffix (type : Option String) {rest : List Char}
    (h : boundary rest = true) : boundary (typeChars type ++ rest) = true := by
  cases type with
  | none => exact h
  | some text => rfl

/-- A text with a type, if there is one, and a text before which no word goes on. -/
theorem typed (ha : Lexes a wa) {type : Option String}
    (ht : ∀ text, type = some text → IsType text) (hb : Lexes b wb)
    (hab : ∀ rest, boundary rest = true → boundary (b ++ rest) = true) :
    Lexes (a ++ typeChars type ++ b) (wa ++ (typeWords type ++ wb)) := by
  rw [List.append_assoc]
  refine ha.append ((typeSuffix ht).append hb hab) fun rest hrest => ?_
  rw [List.append_assoc]
  exact boundary_typeSuffix type (hab rest hrest)

/-- The head of a function and a text before which no word goes on. -/
theorem head {name : String} {isInfix : Bool} {texts : List (List Char)} {lists : List (List Word)}
    {type : Option String} (hn : IsWord name.toList) (hall : List.Forall₂ Lexes texts lists)
    (ht : ∀ text, type = some text → IsType text) (h : Lexes cs ws)
    (hcs : ∀ rest, boundary rest = true → boundary (cs ++ rest) = true) :
    Lexes (headChars name isInfix texts type ++ cs) (headWords name isInfix lists type ++ ws) := by
  have hfun : IsWord "fun".toList := by decide
  have hinfix : IsWord "infix".toList := by decide
  have hrest := keyword hfun ((word hn).append ((listed hall).typed ht h hcs) fun _ _ => rfl)
  unfold headChars headWords
  simp only [List.append_assoc, List.cons_append] at hrest ⊢
  cases isInfix with
  | false => exact hrest
  | true => exact .keyword hinfix hrest

/-- A literal. -/
theorem literal {value : Literal} (h : value.Writable) :
    Lexes (literalChars value) (literalWords value) := by
  have hnumber (hn : value.isNumber = true) : Lexes (literalChars value)
      ((if value.isNegative then [Word.mark .minus] else []) ++
        [⟨value.kind, String.ofList value.unsigned⟩]) := by
    have hspelled := Literal.spelled_unsigned hn h
    have hunsigned : Lexes value.unsigned [⟨value.kind, String.ofList value.unsigned⟩] :=
      fun _ _ hs hrest => words_number hs hspelled hrest
    rw [Literal.literalChars_eq hn h]
    split
    · have hminus : IsMark "-" .minus := by decide
      refine operator hunsigned hminus fun rest => ?_
      obtain ⟨c, cs, hcs, hc⟩ := exists_digit_of_spelled hspelled
      rw [hcs]
      exact plain_of_wordRest (wordRest_of_digit (contains_of_isDigit hc)) _
    · exact hunsigned
  cases value with
  | boolean value =>
    cases value
    · exact @word "false" (by decide)
    · exact @word "true" (by decide)
  | string text =>
    rw [Literal.literalChars_string]
    exact Lexes.text text.toList
  | symbol name =>
    intro stack rest hs hrest
    rw [Literal.literalChars_symbol, List.cons_append, words_symbol hs h hrest]
    simp [literalWords, Literal.isNegative, Literal.kind, Literal.unsigned,
      Literal.literalChars_symbol]
  | _ => exact hnumber rfl

end Lexes

/-! ## Trees that are read as words -/

namespace Tree.Written

variable {role : Role} {tree : Tree}

/-- The text of a literal begins with no sign that could go on with an operator. -/
theorem plain_literalChars {value : Literal} (h : value.Writable) (rest : List Char) :
    plain (literalChars value ++ rest) = true := by
  have hnumber (hn : value.isNumber = true) : plain (literalChars value ++ rest) = true := by
    rw [Literal.literalChars_eq hn h]
    split
    · rfl
    · obtain ⟨c, cs, hcs, hc⟩ := exists_digit_of_spelled (Literal.spelled_unsigned hn h)
      rw [hcs]
      exact plain_of_wordRest (wordRest_of_digit (contains_of_isDigit hc)) _
  cases value with
  | boolean value => cases value <;> rfl
  | string text =>
    rw [Literal.literalChars_string]
    rfl
  | symbol name =>
    rw [Literal.literalChars_symbol]
    rfl
  | _ => exact hnumber rfl

/-- The text of an expression goes on with no operator before it. -/
theorem plain_chars (h : Written .expression tree) (rest : List Char) :
    plain (tree.chars ++ rest) = true := by
  have hword {text : String} (ht : IsWord text.toList) (cs : List Char) :
      plain (text.toList ++ cs) = true := by
    cases hcs : text.toList with
    | nil => rw [hcs] at ht; exact ht.elim
    | cons c others =>
      rw [hcs] at ht
      exact plain_of_wordRest (wordRest_of_wordStart ht.1) _
  induction tree using Tree.induct generalizing rest with
  | step tree ih =>
    have hoperand {child : Tree} (hmem : child ∈ tree.children) (hc : Written .expression child)
        (cs : List Char) : plain (child.operandChars child.chars ++ cs) = true := by
      unfold operandChars
      split
      · rfl
      · exact ih child hmem hc cs
    cases h with
    | literal hv =>
      rw [chars]
      exact plain_literalChars hv rest
    | reference hn =>
      rw [chars]
      exact hword hn.isWord rest
    | memberAccess hr hm =>
      rw [chars, List.append_assoc]
      exact hoperand (by simp [children, groups]) hr _
    | namedInvocation hn ha =>
      rw [chars, List.append_assoc]
      exact hword hn.isWord _
    | anonymousInvocation ht hr ha =>
      rw [chars, List.append_assoc]
      exact hoperand (by simp [children, groups]) ht _
    | @block statements _ =>
      rw [chars]
      unfold bracedChars
      split <;> rfl
    | @conditional condition thenBranch elseBranch _ _ _ =>
      cases elseBranch <;> (rw [chars]; rfl)
    | _ => rw [chars]; rfl

/-- The text of a tree is read as its words. -/
theorem lexes (h : Written role tree) : Lexes tree.chars tree.words := by
  induction h with
  | literal hv =>
    rw [chars, words]
    exact .literal hv
  | stringTemplate hp ih =>
    rw [chars, words]
    exact .quotes fun stack rest => Lexes.segments [] ih stack rest
  | reference hn =>
    rw [chars, words]
    exact .word hn.isWord
  | @unary operator operand ho ih =>
    rw [chars, words]
    refine .grouped ?_
    unfold signedChars signedWords
    split
    · exact .operator ih.grouped operator.isMark fun _ => rfl
    · exact .operator ih operator.isMark ho.plain_chars
  | @binary left right operator hl hr ihl ihr =>
    rw [chars, words, List.append_assoc]
    exact .grouped (ihl.operand.append (ihr.spaced operator.isMark) fun _ _ => rfl)
  | @assignment target value operator ht hv iht ihv =>
    rw [chars, words, List.append_assoc]
    exact .grouped (iht.operand.append (ihv.spaced operator.isMark) fun _ _ => rfl)
  | memberAccess hr hm ih =>
    rw [chars, words]
    exact ih.operand.append (.dot hm.isWord) fun rest _ => Lexes.boundary_dot hm.isWord rest
  | namedInvocation hn ha ih =>
    rw [chars, words]
    exact (Lexes.word hn.isWord).append (.listed (Lexes.map_chars ih)) fun _ _ => rfl
  | anonymousInvocation ht hr ha iht ih =>
    rw [chars, words]
    exact iht.operand.append (.listed (Lexes.map_chars ih)) fun _ _ => rfl
  | infixInvocation hl hn hr ihl ihr =>
    rw [chars, words, List.append_assoc]
    exact .grouped (ihl.operand.append (.blank ((Lexes.word hn.isWord).append
      (ihr.blank (.inl rfl)) fun _ _ => rfl) (.inl rfl)) fun _ _ => rfl)
  | @conditional condition thenBranch elseBranch hc ht he ihc iht ihe =>
    have hif : Lexes ['i', 'f'] [Word.ofText "if"] := @Lexes.word "if" (by decide)
    cases elseBranch with
    | none =>
      rw [chars, words]
      exact hif.append ((ihc.grouped.append (iht.blank (.inl rfl)) fun _ _ => rfl).blank (.inl rfl))
        fun _ _ => rfl
    | some branch =>
      rw [chars, words]
      simp only [List.append_assoc]
      have helse := Lexes.keyword (by decide : IsWord "else".toList) (ihe branch rfl)
      exact hif.append ((ihc.grouped.append ((iht.operand.append (helse.blank (.inl rfl))
        fun _ _ => rfl).blank (.inl rfl)) fun _ _ => rfl).blank (.inl rfl)) fun _ _ => rfl
  | block hs ih =>
    rw [chars, words]
    exact .braced (Lexes.map_chars ih)
  | @localVariable name isMutable type initializer hn ht hi ih =>
    have hkeyword : IsWord (if isMutable then "var" else "val").toList := by
      cases isMutable <;> decide
    have hchars : (if isMutable then "var ".toList else "val ".toList) =
        (if isMutable then "var" else "val").toList ++ [' '] := by
      cases isMutable <;> rfl
    cases initializer with
    | none =>
      have hrest := (Lexes.word hn.isWord).typed ht Lexes.nil.semicolon fun _ _ => rfl
      rw [chars, words, hchars]
      simp only [List.append_assoc] at hrest ⊢
      exact .keyword hkeyword hrest
    | some value =>
      have hrest := (Lexes.word hn.isWord).typed ht (ih value rfl).semicolon.assigned
        fun _ _ => rfl
      rw [chars, words, hchars]
      simp only [List.append_assoc] at hrest ⊢
      exact .keyword hkeyword hrest
  | @returnStatement value hv ih =>
    have hreturn : IsWord "return".toList := by decide
    cases value with
    | none =>
      rw [chars, words]
      exact (Lexes.word hreturn).semicolon
    | some value =>
      rw [chars, words, List.append_assoc]
      exact .keyword hreturn (ih value rfl).semicolon
  | expressionStatement he ih =>
    rw [chars, words]
    exact ih.semicolon
  | @basicArgument name type hn ht =>
    rw [chars, words]
    exact (Lexes.word hn.isWord).append (.typeSuffix ht) fun rest hrest =>
      Lexes.boundary_typeSuffix type hrest
  | @defaultArgument name type default hn ht hd ih =>
    rw [chars, words, List.append_assoc]
    exact (Lexes.word hn.isWord).typed ht ih.assigned fun _ _ => rfl
  | patternArgument hp ih =>
    rw [chars, words]
    exact ih
  | @function name isInfix arguments returnType body hn ha ht hb iha ihb =>
    rw [chars, words]
    unfold bodyChars bodyWords
    split
    · exact .head hn.isWord (Lexes.map_chars iha) ht (ihb.blank (.inl rfl)) fun _ _ => rfl
    · rw [List.append_assoc]
      exact .head hn.isWord (Lexes.map_chars iha) ht ihb.semicolon.assigned fun _ _ => rfl
  | @importEntry name rename hn hr =>
    cases rename with
    | none =>
      rw [chars, words]
      simpa using Lexes.word hn.isWord
    | some text =>
      rw [chars, words]
      have has := Lexes.keyword (by decide : IsWord "as".toList) (Lexes.word (hr text rfl).isWord)
      exact (Lexes.word hn.isWord).append (has.blank (.inl rfl)) fun _ _ => rfl
  | @importPath path entries he ih =>
    have himport : IsWord "import".toList := by decide
    have hchars (cs : List Char) : "import \"".toList ++ Text.escape path.toList ++ ['"'] ++ cs =
        "import".toList ++ ' ' :: ('"' :: (Text.escape path.toList ++ ['"']) ++ cs) := by simp
    rw [chars, words, hchars]
    split
    · exact .keyword himport (Lexes.text path.toList).semicolon
    · have hentries := (Lexes.commas (Lexes.map_chars ih)).braces.semicolon.blank (.inl rfl)
      have hpath := (Lexes.text path.toList).append hentries fun _ _ => rfl
      refine .keyword himport ?_
      simpa [List.append_assoc] using hpath
  | compilationUnit hi hd ihi ihd =>
    rw [chars, words]
    exact .blanks (.inr rfl) (List.rel_append (Lexes.map_chars ihi) (Lexes.map_chars ihd))

end Tree.Written

end ExprLang
