import ExprLang.Proofs.Parser.Options
import ExprLang.Proofs.Reader.Operators
import ExprLang.Proofs.RoundTrip

/-!
# Precedence and associativity

A source of operands with operators between them parses, and what it parses to is
the one tree in which every operand binds strongly enough.

Main results:

- Theorem {lit}`parseText_operators`: sources of operands and operators.
-/

namespace ExprLang

/-- A source of operands with operators between them parses to a tree that has the words of the
source in their order and in which every operand binds strongly enough.  There is no other such
tree. -/
theorem parseText_operators {text : String} (options : ParseOptions) (description : String)
    (h : OperatorSequence ((tokenize text).map Token.word)) :
    ∃ p tree, parseText .expression options description text = .ok (.ok p) ∧
      p.arena.Denotes p.root tree ∧ tree.InOrder ((tokenize text).map Token.word) ∧
      tree.Ranked ∧
      ∀ other : Tree, other.InOrder ((tokenize text).map Token.word) → other.Ranked →
        other = tree := by
  obtain ⟨tree, horder, hranked⟩ := h.exists_ranked
  have hwords : (tokenize text).map Token.word = sourceWords text.toList :=
    Lexer.map_word_tokens (.ofText reference _)
  have hreads : Reader.Reads True (Reader.expression .lowest) _ tree [] :=
    horder.reads_expression hranked
  obtain ⟨clean, flag, hread, hclean⟩ := hreads false
  cases hclean trivial
  have hread' : Reader.expression .lowest (.start (sourceWords text.toList)) =
      ⟨some tree, true, ⟨[], flag⟩⟩ := hwords ▸ hread
  have hentry : Reader.entry .expression (.start (sourceWords text.toList)) =
      ⟨some tree, true, ⟨[], flag⟩⟩ := (Reader.bind_apply_of_some hread').trans rfl
  obtain ⟨p, hparse, hdenotes⟩ := parseText_of_read description hentry
  exact ⟨p, tree, (parseText_eq_ok_iff options).2 hparse, hdenotes, horder, hranked,
    fun other horder' hranked' => horder.eq_of_ranked hranked horder' hranked'⟩

/-- An assignment of a call between its arguments: a product with a negated call, and a
difference. -/
theorem parseText_operators_assignment :
    OperatorSequence ((tokenize "a = -b.c() * d f e - g").map Token.word) ∧
      ∃ p tree, parseText .expression {} "" "a = -b.c() * d f e - g" = .ok (.ok p) ∧
        p.arena.Denotes p.root tree ∧
        tree.InOrder ((tokenize "a = -b.c() * d f e - g").map Token.word) ∧ tree.Ranked ∧
        ∀ other : Tree, other.InOrder ((tokenize "a = -b.c() * d f e - g").map Token.word) →
          other.Ranked → other = tree := by
  have hwords : (tokenize "a = -b.c() * d f e - g").map Token.word =
      [⟨.identifier, "a"⟩] ++ ⟨.assign, "="⟩ ::
        (⟨.minus, "-"⟩ :: (([⟨.identifier, "b"⟩] ++ [⟨.dot, "."⟩, ⟨.identifier, "c"⟩]) ++
          [⟨.leftParen, "("⟩, ⟨.rightParen, ")"⟩]) ++ ⟨.times, "*"⟩ ::
        ([⟨.identifier, "d"⟩] ++ ⟨.identifier, "f"⟩ ::
        ([⟨.identifier, "e"⟩] ++ ⟨.minus, "-"⟩ :: [⟨.identifier, "g"⟩]))) := by decide +kernel
  have hname (text : String) : Operand [⟨.identifier, text⟩] := .primary (.name rfl)
  have hoperand : Operand (⟨.minus, "-"⟩ :: (([⟨.identifier, "b"⟩] ++
      [⟨.dot, "."⟩, ⟨.identifier, "c"⟩]) ++ [⟨.leftParen, "("⟩, ⟨.rightParen, ")"⟩])) :=
    .unary (show _ = UnaryOperator.negate.kind from rfl)
      (.primary (.call (.member (.name rfl) rfl (by decide)) rfl rfl))
  have hassign : (InfixOperator.assignment .assign).IsWord ⟨.assign, "="⟩ := rfl
  have htimes : (InfixOperator.binary .times).IsWord ⟨.times, "*"⟩ := rfl
  have hcall : (InfixOperator.call "f").IsWord ⟨.identifier, "f"⟩ := ⟨rfl, rfl⟩
  have hminus : (InfixOperator.binary .minus).IsWord ⟨.minus, "-"⟩ := rfl
  have hsequence : OperatorSequence ((tokenize "a = -b.c() * d f e - g").map Token.word) := by
    rw [hwords]
    exact .operator (hname "a") hassign (.operator hoperand htimes
      (.operator (hname "d") hcall (.operator (hname "e") hminus (.operand (hname "g")))))
  exact ⟨hsequence, parseText_operators {} "" hsequence⟩

end ExprLang
