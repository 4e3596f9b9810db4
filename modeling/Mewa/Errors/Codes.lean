/- Module: Mewa/Errors/Codes
   digest: The numbers and the texts of the error codes. -/

import Mewa.Error

set_option autoImplicit false
set_option relaxedAutoImplicit false

namespace Mewa

namespace ErrorCode

def value : ErrorCode → Nat
  | Ok => 0
  | MemoryAllocationError => 400
  | InternalBufferOverflow => 401
  | LogicError => 402
  | RuntimeException => 403
  | UnexpectedException => 404
  | SerializationError => 405
  | ExpectedStringArgument => 407
  | ExpectedIntegerArgument => 408
  | ExpectedNonNegativeIntegerArgument => 409
  | ExpectedUnsignedIntegerArgument => 410
  | ExpectedBooleanArgument => 411
  | ExpectedFloatingPointArgument => 412
  | ExpectedTableArgument => 413
  | ExpectedArgumentScopeStructure => 414
  | ExpectedArgumentTypeConstructorPairList => 415
  | ExpectedArgumentStringList => 416
  | ExpectedArgumentType => 417
  | ExpectedArgumentTypeList => 418
  | ExpectedArgumentTypeOrTypeConstructorPairList => 419
  | ExpectedArgumentNotNil => 420
  | TooFewArguments => 421
  | TooManyArguments => 422
  | CompileError => 423
  | IllegalFirstCharacterInLexer => 431
  | SyntaxErrorInLexer => 432
  | ArrayBoundReadInLexer => 433
  | InvalidRegexInLexer => 434
  | KeywordDefinedTwiceInLexer => 435
  | TooManyInstancesCreated => 436
  | CompiledSourceTooComplex => 437
  | BadMewaVersion => 447
  | MissingMewaVersion => 448
  | IncompatibleMewaMajorVersion => 449
  | TooManyTypeArguments => 450
  | PriorityOutOfRange => 451
  | DuplicateDefinition => 452
  | BadRelationWeight => 453
  | BadRelationTag => 454
  | InvalidHandle => 455
  | InvalidBoundary => 456
  | AmbiguousReductionDefinitions => 462
  | ScopeHierarchyError => 463
  | InvalidReductionDefinition => 464
  | BadCharacterInGrammarDef => 501
  | ValueOutOfRangeInGrammarDef => 502
  | UnexpectedEofInGrammarDef => 503
  | UnexpectedTokenInGrammarDef => 504
  | DuplicateScopeInGrammarDef => 505
  | NestedCallArgumentStructureInGrammarDef => 506
  | UsingReservedAttributeNameInGrammarDef => 507
  | DuplicateProductionInGrammarDef => 508
  | PriorityDefNotForLexemsInGrammarDef => 521
  | UnexpectedEndOfRuleInGrammarDef => 531
  | EscapeQuoteErrorInString => 532
  | CommandNumberOfArgumentsInGrammarDef => 541
  | CommandNameUnknownInGrammarDef => 542
  | MandatoryCommandMissingInGrammarDef => 543
  | ConflictingCommandInGrammarDef => 544
  | DefinedAsTerminalAndNonterminalInGrammarDef => 551
  | UnresolvedIdentifierInGrammarDef => 552
  | UnreachableNonTerminalInGrammarDef => 553
  | StartSymbolReferencedInGrammarDef => 554
  | StartSymbolDefinedTwiceInGrammarDef => 555
  | EmptyGrammarDef => 556
  | PriorityConflictInGrammarDef => 557
  | NoAcceptStatesInGrammarDef => 558
  | ShiftReduceConflictInGrammarDef => 561
  | ReduceReduceConflictInGrammarDef => 562
  | ShiftShiftConflictInGrammarDef => 563
  | ConflictsInGrammarDef => 564
  | ComplexityMaxStateInGrammarDef => 571
  | ComplexityMaxNofProductionsInGrammarDef => 572
  | ComplexityMaxProductionLengthInGrammarDef => 573
  | ComplexityMaxProductionPriorityInGrammarDef => 574
  | ComplexityMaxNonterminalInGrammarDef => 575
  | ComplexityMaxTerminalInGrammarDef => 576
  | ComplexityLR1FollowSetsInGrammarDef => 577
  | BadKeyInGeneratedLuaTable => 581
  | BadValueInGeneratedLuaTable => 582
  | UnresolvableFunctionInLuaCallTable => 583
  | UnresolvableFunctionArgInLuaCallTable => 584
  | BadElementOnCompilerStack => 585
  | NoLuaFunctionDefinedForItem => 586
  | LuaCallErrorERRRUN => 591
  | LuaCallErrorERRMEM => 592
  | LuaCallErrorERRERR => 593
  | LuaCallErrorUNKNOWN => 594
  | LuaStackOutOfMemory => 595
  | LuaInvalidUserData => 596
  | UnexpectedTokenNotOneOf => 601
  | LanguageAutomatonCorrupted => 602
  | LanguageAutomatonMissingGoto => 603
  | LanguageAutomatonUnexpectedAccept => 604

def text : ErrorCode → String
  | Ok => ""
  | MemoryAllocationError => "memory allocation error"
  | InternalBufferOverflow =>
    "internal buffer overflow error (some string is not fitting into a local buffer of fixed maximum size)"
  | LogicError => "Logic error"
  | RuntimeException => "Runtime error exception"
  | UnexpectedException => "Unexpected exception"
  | SerializationError => "Error serializing a lua data structure"
  | ExpectedStringArgument => "Expected string as argument"
  | ExpectedIntegerArgument => "Expected integer as argument"
  | ExpectedNonNegativeIntegerArgument => "Expected non negative integer as argument"
  | ExpectedUnsignedIntegerArgument => "Expected positive integer as argument"
  | ExpectedBooleanArgument => "Expected boolean value as argument"
  | ExpectedFloatingPointArgument => "Expected floating point number as argument"
  | ExpectedTableArgument => "Expected table as argument"
  | ExpectedArgumentScopeStructure =>
    "Expected argument to be a structure (pair of non negative integers, unsigned integer range)"
  | ExpectedArgumentTypeConstructorPairList =>
    "Expected argument to be a list of type,constructor pairs (named or positional)"
  | ExpectedArgumentStringList => "Expected argument to be a list of strings"
  | ExpectedArgumentType => "Expected argument to be a type or a type/constructor pair"
  | ExpectedArgumentTypeList =>
    "Expected argument to be a list of types (integers) or a list of type/constructor pairs"
  | ExpectedArgumentTypeOrTypeConstructorPairList =>
    "Expected argument to be a list of types (integers) or type,constructor pairs"
  | ExpectedArgumentNotNil => "Expected argument to be not nil"
  | TooFewArguments => "Too few arguments"
  | TooManyArguments => "Too many arguments"
  | CompileError => "Compile error"
  | IllegalFirstCharacterInLexer => "Bad character in a regular expression passed to the lexer"
  | SyntaxErrorInLexer => "Syntax error in the lexer definition"
  | ArrayBoundReadInLexer => "Logic error (array bound read) in the lexer definition"
  | InvalidRegexInLexer => "Bad regular expression definition for the lexer"
  | KeywordDefinedTwiceInLexer => "Keyword defined twice for the lexer"
  | TooManyInstancesCreated => "Too many instances created (internal counter overflow)"
  | CompiledSourceTooComplex => "Too complex source file (counter overflow)"
  | BadMewaVersion => "Bad Mewa version"
  | MissingMewaVersion => "Missing Mewa version"
  | IncompatibleMewaMajorVersion =>
    "Incompatible Mewa major version. You need a higher version of the Mewa Lua module"
  | TooManyTypeArguments => "Too many arguments in type definition"
  | PriorityOutOfRange => "Priority value out of range"
  | DuplicateDefinition => "Duplicate definition"
  | BadRelationWeight => "Bad weight <= 0.0 given to relation"
  | BadRelationTag =>
    "Bad value tor tag attached to relation, must be an unsigned integer number in \x7b1..32\x7d"
  | InvalidHandle =>
    "Invalid handle (constructor,type,object) assigned. Expected to be a positive/non negative integer number"
  | InvalidBoundary => "Invalid processing boundary value. Expected to be a non negative number"
  | AmbiguousReductionDefinitions => "Ambiguous definitions of reductions"
  | ScopeHierarchyError =>
    "Error in scope hierarchy: Defined overlapping scopes without one including the other"
  | InvalidReductionDefinition => "Invalid reduction definition"
  | BadCharacterInGrammarDef => "Bad character in the grammar definition"
  | ValueOutOfRangeInGrammarDef => "Value out of range in the grammar definition"
  | UnexpectedEofInGrammarDef => "Unexpected EOF in the grammar definition"
  | UnexpectedTokenInGrammarDef => "Unexpected token in the grammar definition"
  | DuplicateScopeInGrammarDef =>
    "More than one scope marker '\x7b\x7d' of '>>' not allowed in a call definition"
  | NestedCallArgumentStructureInGrammarDef =>
    "Nested structures as AST node function arguments are not allowed"
  | UsingReservedAttributeNameInGrammarDef =>
    "Using reserved attribute in comment (identifier with prefix '@')"
  | DuplicateProductionInGrammarDef => "Duplicate production in the grammar definition"
  | PriorityDefNotForLexemsInGrammarDef => "Priority definition for lexems not implemented"
  | UnexpectedEndOfRuleInGrammarDef => "Unexpected end of rule in the grammar definition"
  | EscapeQuoteErrorInString =>
    "Some internal pattern string mapping error in the grammar definition"
  | CommandNumberOfArgumentsInGrammarDef =>
    "Wrong number of arguments for command (followed by '%') in the grammar definition"
  | CommandNameUnknownInGrammarDef => "Unknown command (followed by '%') in the grammar definition"
  | MandatoryCommandMissingInGrammarDef => "Mandatory command is missing in grammar definition"
  | ConflictingCommandInGrammarDef => "Conflicting commands in grammar definition"
  | DefinedAsTerminalAndNonterminalInGrammarDef =>
    "Identifier defined as nonterminal and as lexem in the grammar definition not allowed"
  | UnresolvedIdentifierInGrammarDef => "Unresolved identifier in the grammar definition"
  | UnreachableNonTerminalInGrammarDef => "Unreachable nonteminal in the grammar definition"
  | StartSymbolReferencedInGrammarDef =>
    "Start symbol referenced on the right side of a rule in the grammar definition"
  | StartSymbolDefinedTwiceInGrammarDef =>
    "Start symbol defined on the left side of more than one rule of the grammar definition"
  | EmptyGrammarDef => "The grammar definition is empty"
  | PriorityConflictInGrammarDef => "Priority definition conflict in the grammar definition"
  | NoAcceptStatesInGrammarDef => "No accept states in the grammar definition"
  | ShiftReduceConflictInGrammarDef => "SHIFT/REDUCE conflict in the grammar definition"
  | ReduceReduceConflictInGrammarDef => "REDUCE/REDUCE conflict in the grammar definition"
  | ShiftShiftConflictInGrammarDef => "SHIFT/SHIFT conflict in the grammar definition"
  | ConflictsInGrammarDef => "Conflicts detected in the grammar definition. No output written."
  | ComplexityMaxStateInGrammarDef => "To many states in the resulting tables of the grammar"
  | ComplexityMaxNofProductionsInGrammarDef => "Too many productions defined in the grammar"
  | ComplexityMaxProductionLengthInGrammarDef =>
    "To many productions in the resulting tables of the grammar"
  | ComplexityMaxProductionPriorityInGrammarDef =>
    "Priority value assigned to production exceeds maximum value allowed"
  | ComplexityMaxNonterminalInGrammarDef =>
    "To many nonterminals in the resulting tables of the grammar"
  | ComplexityMaxTerminalInGrammarDef =>
    "To many terminals (lexems) in the resulting tables of the grammar"
  | ComplexityLR1FollowSetsInGrammarDef =>
    "To many distinct FOLLOW sets of terminals (lexems) in the resulting tables of the grammar"
  | BadKeyInGeneratedLuaTable => "Bad key encountered in table generated by Mewa grammar compiler"
  | BadValueInGeneratedLuaTable =>
    "Bad value encountered in table generated by Mewa grammar compiler"
  | UnresolvableFunctionInLuaCallTable => "Function defined in Lua call table is undefined"
  | UnresolvableFunctionArgInLuaCallTable =>
    "Function context argument defined in Lua call table is undefined"
  | BadElementOnCompilerStack => "Bad token on the Lua stack of the compiler"
  | NoLuaFunctionDefinedForItem => "Item found with no Lua function defined for collecting it"
  | LuaCallErrorERRRUN => "Lua runtime error (ERRRUN)"
  | LuaCallErrorERRMEM => "Lua memory allocation error (ERRMEM)"
  | LuaCallErrorERRERR => "Lua error handler error (ERRERR)"
  | LuaCallErrorUNKNOWN => "Lua error handler error (unknown error)"
  | LuaStackOutOfMemory => "Lua stack out of memory"
  | LuaInvalidUserData => "Userdata argument of this call is invalid"
  | UnexpectedTokenNotOneOf => "Syntax error, unexpected token (expected one of \x7b...\x7d)"
  | LanguageAutomatonCorrupted => "Logic error, the automaton for parsing the language is corrupt"
  | LanguageAutomatonMissingGoto =>
    "Logic error, the automaton has no goto defined for a follow symbol"
  | LanguageAutomatonUnexpectedAccept => "Logic error, got into an unexpected accept state"

def all : List ErrorCode :=
  [.Ok, .MemoryAllocationError, .InternalBufferOverflow, .LogicError, .RuntimeException,
    .UnexpectedException, .SerializationError, .ExpectedStringArgument,
    .ExpectedIntegerArgument, .ExpectedNonNegativeIntegerArgument,
    .ExpectedUnsignedIntegerArgument, .ExpectedBooleanArgument, .ExpectedFloatingPointArgument,
    .ExpectedTableArgument, .ExpectedArgumentScopeStructure,
    .ExpectedArgumentTypeConstructorPairList, .ExpectedArgumentStringList,
    .ExpectedArgumentType, .ExpectedArgumentTypeList,
    .ExpectedArgumentTypeOrTypeConstructorPairList, .ExpectedArgumentNotNil, .TooFewArguments,
    .TooManyArguments, .CompileError, .IllegalFirstCharacterInLexer, .SyntaxErrorInLexer,
    .ArrayBoundReadInLexer, .InvalidRegexInLexer, .KeywordDefinedTwiceInLexer,
    .TooManyInstancesCreated, .CompiledSourceTooComplex, .BadMewaVersion, .MissingMewaVersion,
    .IncompatibleMewaMajorVersion, .TooManyTypeArguments, .PriorityOutOfRange,
    .DuplicateDefinition, .BadRelationWeight, .BadRelationTag, .InvalidHandle,
    .InvalidBoundary, .AmbiguousReductionDefinitions, .ScopeHierarchyError,
    .InvalidReductionDefinition, .BadCharacterInGrammarDef, .ValueOutOfRangeInGrammarDef,
    .UnexpectedEofInGrammarDef, .UnexpectedTokenInGrammarDef, .DuplicateScopeInGrammarDef,
    .NestedCallArgumentStructureInGrammarDef, .UsingReservedAttributeNameInGrammarDef,
    .DuplicateProductionInGrammarDef, .PriorityDefNotForLexemsInGrammarDef,
    .UnexpectedEndOfRuleInGrammarDef, .EscapeQuoteErrorInString,
    .CommandNumberOfArgumentsInGrammarDef, .CommandNameUnknownInGrammarDef,
    .MandatoryCommandMissingInGrammarDef, .ConflictingCommandInGrammarDef,
    .DefinedAsTerminalAndNonterminalInGrammarDef, .UnresolvedIdentifierInGrammarDef,
    .UnreachableNonTerminalInGrammarDef, .StartSymbolReferencedInGrammarDef,
    .StartSymbolDefinedTwiceInGrammarDef, .EmptyGrammarDef, .PriorityConflictInGrammarDef,
    .NoAcceptStatesInGrammarDef, .ShiftReduceConflictInGrammarDef,
    .ReduceReduceConflictInGrammarDef, .ShiftShiftConflictInGrammarDef, .ConflictsInGrammarDef,
    .ComplexityMaxStateInGrammarDef, .ComplexityMaxNofProductionsInGrammarDef,
    .ComplexityMaxProductionLengthInGrammarDef, .ComplexityMaxProductionPriorityInGrammarDef,
    .ComplexityMaxNonterminalInGrammarDef, .ComplexityMaxTerminalInGrammarDef,
    .ComplexityLR1FollowSetsInGrammarDef, .BadKeyInGeneratedLuaTable,
    .BadValueInGeneratedLuaTable, .UnresolvableFunctionInLuaCallTable,
    .UnresolvableFunctionArgInLuaCallTable, .BadElementOnCompilerStack,
    .NoLuaFunctionDefinedForItem, .LuaCallErrorERRRUN, .LuaCallErrorERRMEM,
    .LuaCallErrorERRERR, .LuaCallErrorUNKNOWN, .LuaStackOutOfMemory, .LuaInvalidUserData,
    .UnexpectedTokenNotOneOf, .LanguageAutomatonCorrupted, .LanguageAutomatonMissingGoto,
    .LanguageAutomatonUnexpectedAccept]

def ofValue (number : Nat) : Option ErrorCode := all.find? fun code => code.value = number

theorem ofValue_value (code : ErrorCode) : ofValue code.value = some code := by
  cases code <;> rfl

theorem value_injective : Function.Injective value := by
  intro code other same
  have found := ofValue_value code
  rw [same, ofValue_value] at found
  exact (Option.some.inj found).symm

/-- What is known of the texts: one of them has a colon. -/
structure PlainText (code : ErrorCode) (text : List Char) : Prop where
  no_quote : '"' ∉ text
  no_null : '\x00' ∉ text
  short : text.length ≤ 104
  colon : ':' ∈ text → code = .ScopeHierarchyError

instance (code : ErrorCode) (text : List Char) : Decidable (PlainText code text) :=
  decidable_of_iff ('"' ∉ text ∧ '\x00' ∉ text ∧ text.length ≤ 104 ∧
      (':' ∈ text → code = .ScopeHierarchyError))
    ⟨fun ⟨no_quote, no_null, short, colon⟩ => ⟨no_quote, no_null, short, colon⟩,
      fun plain => ⟨plain.no_quote, plain.no_null, plain.short, plain.colon⟩⟩

theorem plainText_of_chars {code : ErrorCode} {text : String} (chars : List Char)
    (same : text = String.ofList chars) (plain : PlainText code chars) :
    PlainText code text.toList := by
  rw [same, String.toList_ofList]
  exact plain

theorem plainText (code : ErrorCode) : PlainText code code.text.toList := by
  -- a literal is compared with its characters, which is faster than to decode it
  cases code <;> exact plainText_of_chars _ rfl (by decide +kernel)

end ErrorCode

/-- The text of a number of an error. The numbers below 300 are those of the system, whose texts
    come from the function `strerror`. -/
def code2String (strerror : Nat → List Char) (code : Nat) : List Char :=
  if code ≠ 0 ∧ code < 300 then strerror code
  else
    match ErrorCode.ofValue code with
    | some code => code.text.toList
    | none => "Unknown error".toList

theorem code2String_value (strerror : Nat → List Char) (code : ErrorCode) :
    code2String strerror code.value = code.text.toList := by
  have range : ¬ (code.value ≠ 0 ∧ code.value < 300) := by
    cases code <;> decide
  unfold code2String
  rw [if_neg range, ErrorCode.ofValue_value]

end Mewa
