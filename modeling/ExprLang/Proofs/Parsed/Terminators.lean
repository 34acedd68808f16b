import ExprLang.Proofs.Lexer.Erasure
import ExprLang.Proofs.Parser.Isolation
import ExprLang.Proofs.Parser.Options
import ExprLang.Proofs.Reader.Followers
import ExprLang.Proofs.RoundTrip

/-!
# Semicolons behind closing braces

A statement that ends with a closing brace needs no semicolon, unless the next word
goes on with an expression: then, without the semicolon, it goes on with the one that
the brace ends.

Main results:

- Theorem {lit}`parseText_without_semicolon`: a source without such a semicolon.
-/

namespace ExprLang

variable {e : Entry} {options : ParseOptions} {description text : String} {p : Parsed}

/-- A source that parses without errors parses to an equivalent tree without a semicolon behind a
closing brace, provided that what comes behind the semicolon does not go on with an expression. -/
theorem parseText_without_semicolon {front back : String} {before more : List Token}
    {brace semicolon : Token}
    (hparse : parseText e options description (front ++ ";" ++ back) = .ok (.ok p))
    (htokens : tokenize (front ++ ";" ++ back) = before ++ brace :: semicolon :: more)
    (hbrace : brace.kind = .rightBrace) (hsemicolon : semicolon.kind = .semicolon)
    (hstart : semicolon.span.start.offset = front.utf8ByteSize)
    (hmore : ∀ t ∈ more.head?, ContinueRule.ofKind? t.kind = none) (description' : String) :
    ∃ q, parseText e options description' (front ++ back) = .ok (.ok q) ∧
      q.arena.equivalent q.root p.arena p.root = true := by
  have hwords : sourceWords (front ++ ";" ++ back).toList =
      (before.map Token.word ++ [brace.word]) ++ semicolon.word :: more.map Token.word := by
    have hmap : (tokenize (front ++ ";" ++ back)).map Token.word =
        sourceWords (front ++ ";" ++ back).toList := Lexer.map_word_tokens (.ofText reference _)
    rw [← hmap, htokens]
    simp
  have hwords' := Lexer.sourceWords_erase htokens hbrace hsemicolon hstart
  obtain ⟨tree, rest, hread, hdenotes, hwritten, -⟩ :=
    exists_read_of_parseText ((parseText_eq_ok_iff options).1 hparse)
  rw [hwords] at hread
  have hfollows : (Spot.start (more.map Token.word)).peek.kind.followsEnd = true :=
    Reader.followsEnd_of_entry hsemicolon
      (fun w hw => kind_ne_of_mem_sourceWords (hwords ▸ List.mem_append_left _ hw)) hread
  have herasable : Erasable semicolon.word (more.map Token.word) := by
    refine ⟨hsemicolon, hfollows, ?_⟩
    cases more with
    | nil => rfl
    | cons t more => exact hmore t rfl
  rw [List.append_assoc, List.singleton_append] at hread
  have haligned : Beside semicolon.word (more.map Token.word)
      (.start (before.map Token.word ++ brace.word :: semicolon.word :: more.map Token.word))
      (.start (before.map Token.word ++ brace.word :: more.map Token.word)) :=
    .aligned (.ahead hbrace)
  obtain ⟨rest', hread', -, -⟩ := Reader.matches_entry herasable e _ _
    haligned (Nat.lt_succ_self _) tree rest hread
  have hsame : Reader.entry e (.start (sourceWords (front ++ back).toList)) =
      ⟨some tree, true, rest'⟩ := by
    rw [hwords']
    exact hread'
  obtain ⟨q, hq, hdenotes'⟩ := parseText_of_read description' hsame
  exact ⟨q, (parseText_eq_ok_iff options).2 hq,
    (hdenotes'.equivalent_iff hdenotes).2 hwritten.agrees_self⟩

/-- A conditional that ends with a closing brace stands before a return. -/
theorem parseText_without_semicolon_conditional : ∃ p q,
    parseText .expression {} "" ("\x7b if (a) \x7b b \x7d" ++ ";" ++ " return c \x7d") =
        .ok (.ok p) ∧
      parseText .expression {} "" ("\x7b if (a) \x7b b \x7d" ++ " return c \x7d") =
        .ok (.ok q) ∧ q.arena.equivalent q.root p.arena p.root = true := by
  obtain ⟨p, hp⟩ := Option.isSome_iff_exists.1
    (show (parsed? .expression
      ("\x7b if (a) \x7b b \x7d" ++ ";" ++ " return c \x7d")).isSome = true by decide +kernel)
  have htokens : tokenize ("\x7b if (a) \x7b b \x7d" ++ ";" ++ " return c \x7d") =
      (tokenize ("\x7b if (a) \x7b b \x7d" ++ ";" ++ " return c \x7d")).take 7 ++
        ⟨.rightBrace, "\x7d", ⟨⟨0, 13, 13⟩, ⟨0, 14, 14⟩⟩⟩ ::
        ⟨.semicolon, ";", ⟨⟨0, 14, 14⟩, ⟨0, 15, 15⟩⟩⟩ ::
        [⟨.wordReturn, "return", ⟨⟨0, 16, 16⟩, ⟨0, 22, 22⟩⟩⟩,
          ⟨.identifier, "c", ⟨⟨0, 23, 23⟩, ⟨0, 24, 24⟩⟩⟩,
          ⟨.rightBrace, "\x7d", ⟨⟨0, 25, 25⟩, ⟨0, 26, 26⟩⟩⟩] := by decide +kernel
  have hstart : 14 = "\x7b if (a) \x7b b \x7d".utf8ByteSize := by decide +kernel
  have hmore : ContinueRule.ofKind? .wordReturn = none := rfl
  have hparse := parseText_of_parsed? hp
  obtain ⟨q, hq, hequivalent⟩ := parseText_without_semicolon hparse htokens rfl rfl hstart
    (fun t ht => by cases ht; exact hmore) ""
  exact ⟨p, q, hparse, hq, hequivalent⟩

/-- A name behind the closing brace of a conditional makes the conditional an operand. -/
theorem exists_parseText_only_with_semicolon : ∃ p,
    parseText .unit {} "" "fun f() \x7b if (a) \x7b b \x7d; foo() \x7d" = .ok (.ok p) ∧
      ¬ ∃ q, parseText .unit {} "" "fun f() \x7b if (a) \x7b b \x7d foo() \x7d" =
        .ok (.ok q) := by
  obtain ⟨p, hp⟩ := Option.isSome_iff_exists.1
    (show (parsed? .unit "fun f() \x7b if (a) \x7b b \x7d; foo() \x7d").isSome = true by
      decide +kernel)
  refine ⟨p, parseText_of_parsed? hp, ?_⟩
  rintro ⟨q, hq⟩
  have hnone : (parsed? .unit "fun f() \x7b if (a) \x7b b \x7d foo() \x7d").isNone = true := by
    decide +kernel
  rw [parsed?_of_parseText hq] at hnone
  cases hnone

end ExprLang
