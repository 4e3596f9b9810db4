/- Module: Mewa/Error
   digest: Error codes, thrown errors and the outcomes of a run of the modelled code. -/

import Mathlib.Init

set_option autoImplicit false
set_option relaxedAutoImplicit false

namespace Mewa

inductive ErrorCode
  | Ok
  | MemoryAllocationError
  | InternalBufferOverflow
  | LogicError
  | RuntimeException
  | UnexpectedException
  | SerializationError
  | ExpectedStringArgument
  | ExpectedIntegerArgument
  | ExpectedNonNegativeIntegerArgument
  | ExpectedUnsignedIntegerArgument
  | ExpectedBooleanArgument
  | ExpectedFloatingPointArgument
  | ExpectedTableArgument
  | ExpectedArgumentScopeStructure
  | ExpectedArgumentTypeConstructorPairList
  | ExpectedArgumentStringList
  | ExpectedArgumentType
  | ExpectedArgumentTypeList
  | ExpectedArgumentTypeOrTypeConstructorPairList
  | ExpectedArgumentNotNil
  | TooFewArguments
  | TooManyArguments
  | CompileError
  | IllegalFirstCharacterInLexer
  | SyntaxErrorInLexer
  | ArrayBoundReadInLexer
  | InvalidRegexInLexer
  | KeywordDefinedTwiceInLexer
  | TooManyInstancesCreated
  | CompiledSourceTooComplex
  | BadMewaVersion
  | MissingMewaVersion
  | IncompatibleMewaMajorVersion
  | TooManyTypeArguments
  | PriorityOutOfRange
  | DuplicateDefinition
  | BadRelationWeight
  | BadRelationTag
  | InvalidHandle
  | InvalidBoundary
  | AmbiguousReductionDefinitions
  | ScopeHierarchyError
  | InvalidReductionDefinition
  | BadCharacterInGrammarDef
  | ValueOutOfRangeInGrammarDef
  | UnexpectedEofInGrammarDef
  | UnexpectedTokenInGrammarDef
  | DuplicateScopeInGrammarDef
  | NestedCallArgumentStructureInGrammarDef
  | UsingReservedAttributeNameInGrammarDef
  | DuplicateProductionInGrammarDef
  | PriorityDefNotForLexemsInGrammarDef
  | UnexpectedEndOfRuleInGrammarDef
  | EscapeQuoteErrorInString
  | CommandNumberOfArgumentsInGrammarDef
  | CommandNameUnknownInGrammarDef
  | MandatoryCommandMissingInGrammarDef
  | ConflictingCommandInGrammarDef
  | DefinedAsTerminalAndNonterminalInGrammarDef
  | UnresolvedIdentifierInGrammarDef
  | UnreachableNonTerminalInGrammarDef
  | StartSymbolReferencedInGrammarDef
  | StartSymbolDefinedTwiceInGrammarDef
  | EmptyGrammarDef
  | PriorityConflictInGrammarDef
  | NoAcceptStatesInGrammarDef
  | ShiftReduceConflictInGrammarDef
  | ReduceReduceConflictInGrammarDef
  | ShiftShiftConflictInGrammarDef
  | ConflictsInGrammarDef
  | ComplexityMaxStateInGrammarDef
  | ComplexityMaxNofProductionsInGrammarDef
  | ComplexityMaxProductionLengthInGrammarDef
  | ComplexityMaxProductionPriorityInGrammarDef
  | ComplexityMaxNonterminalInGrammarDef
  | ComplexityMaxTerminalInGrammarDef
  | ComplexityLR1FollowSetsInGrammarDef
  | BadKeyInGeneratedLuaTable
  | BadValueInGeneratedLuaTable
  | UnresolvableFunctionInLuaCallTable
  | UnresolvableFunctionArgInLuaCallTable
  | BadElementOnCompilerStack
  | NoLuaFunctionDefinedForItem
  | LuaCallErrorERRRUN
  | LuaCallErrorERRMEM
  | LuaCallErrorERRERR
  | LuaCallErrorUNKNOWN
  | LuaStackOutOfMemory
  | LuaInvalidUserData
  | UnexpectedTokenNotOneOf
  | LanguageAutomatonCorrupted
  | LanguageAutomatonMissingGoto
  | LanguageAutomatonUnexpectedAccept
  deriving DecidableEq, Repr

/-- A thrown error with its argument text and its line, where it has one. -/
structure Error where
  code : ErrorCode
  arg : String := ""
  line : Int := 0
  deriving DecidableEq, Repr

/-- How a modelled function can fail: by a thrown error, by an exception of the base class with the
    text of an error, by an access outside an array or a container, or because the bound on the
    iterations of a loop was used up. -/
inductive Failure
  | thrown (e : Error)
  | runtimeError (e : Error)
  | outOfRange
  | outOfFuel
  deriving DecidableEq, Repr

end Mewa
