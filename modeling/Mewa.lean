import Mewa.Error
import Mewa.Lib.Sorted
import Mewa.Lib.Correspond
import Mewa.Lib.Result
import Mewa.Lib.StateResult
import Mewa.Lib.Forest
import Mewa.Lib.Paths
import Mewa.Lib.BestFirst
import Mewa.Lib.ParseForest
import Mewa.Lib.Derivation
import Mewa.Lib.Lockstep
import Mewa.Lib.Prefixes
import Mewa.Lib.Sizes
import Mewa.Lib.Bits
import Mewa.Lib.Items
import Mewa.Lib.LrTable
import Mewa.Lib.LiteralPattern
import Mewa.Lib.LuaString
import Mewa.Scope.Structs
import Mewa.Scope.Chain
import Mewa.Scope.Linking
import Mewa.Scope.Insert
import Mewa.Scope.Define
import Mewa.Scope.Lookup
import Mewa.Scope.Runs
import Mewa.Scope.Overlap
import Mewa.Scope.Tree
import Mewa.Scope.Copied
import Mewa.Scope.Hierarchy
import Mewa.Scope.Builder
import Mewa.Scope.ListMap
import Mewa.Lib.Firsts
import Mewa.Lib.Acyclic
import Mewa.Lib.Fuel
import Mewa.TypeDb.Relation
import Mewa.TypeDb.Elements
import Mewa.TypeDb.ScopeTrees
import Mewa.TypeDb.Structs
import Mewa.TypeDb.Derive
import Mewa.Scope.Sound
import Mewa.Scope.Admitted
import Mewa.Scope.Frame
import Mewa.TypeDb.Reachable
import Mewa.TypeDb.Frontier
import Mewa.TypeDb.Identifiers
import Mewa.TypeDb.Competing
import Mewa.TypeDb.Search
import Mewa.TypeDb.Resolve
import Mewa.TypeDb.Overloads
import Mewa.TypeDb.Nearest
import Mewa.TypeDb.Names
import Mewa.TypeDb.Entries
import Mewa.TypeDb.Store
import Mewa.TypeDb.Defined
import Mewa.TypeDb.TypeTree
import Mewa.TypeDb.Apart
import Mewa.TypeDb.Aliases
import Mewa.TypeDb.Isolation
import Mewa.TypeDb.Printing
import Mewa.TypeDb.Repeated
import Mewa.Automaton.Structs
import Mewa.Lexer.Definitions
import Mewa.Lexer.Keywords
import Mewa.Lib.Choice
import Mewa.Lib.Nesting
import Mewa.Lib.QuotedWords
import Mewa.Lib.Decimal
import Mewa.Lib.Numbering
import Mewa.Lexer.Scanner
import Mewa.Lexer.Defined
import Mewa.Lexer.Registry
import Mewa.Lexer.KeywordText
import Mewa.Lexer.Tokens
import Mewa.Lexer.Calls
import Mewa.Lexer.Progress
import Mewa.Lexer.Munch
import Mewa.Lexer.Indent
import Mewa.Lexer.OffSide
import Mewa.Lexer.Balance
import Mewa.Generated.Literal
import Mewa.Generated.LexerTable
import Mewa.Generated.Reading
import Mewa.Generated.Loading
import Mewa.Generated.Reloaded
import Mewa.Generated.Classes
import Mewa.Generated.Terminals
import Mewa.Grammar.Parser
import Mewa.Grammar.Wellformed
import Mewa.Grammar.Reachable
import Mewa.Grammar.Decorators
import Mewa.Grammar.Lexing
import Mewa.Grammar.Called
import Mewa.Grammar.Productions
import Mewa.Grammar.Spelling
import Mewa.Grammar.Duplicates
import Mewa.Automaton.First
import Mewa.Automaton.Closure
import Mewa.Automaton.States
import Mewa.Automaton.Table
import Mewa.Grammar.Numbers
import Mewa.Generated.Tostring
import Mewa.Automaton.Rules
import Mewa.Automaton.Explore
import Mewa.Automaton.Lr0
import Mewa.Automaton.Merge
import Mewa.Automaton.Entries
import Mewa.Automaton.Conflicts
import Mewa.Automaton.Priorities
import Mewa.Compiler.Driver
import Mewa.Compiler.Run
import Mewa.Compiler.Ast
import Mewa.Compiler.Stack
import Mewa.Compiler.Scopes
import Mewa.Compiler.Counter
import Mewa.Ident.Key
import Mewa.Ident.Map
import Mewa.Lexer.Lines
import Mewa.Grammar.Written
import Mewa.Grammar.Scan
import Mewa.Grammar.Attached
import Mewa.Lexer.Alike
import Mewa.Generated.Rebuilt
import Mewa.TypeDb.TagSets
import Mewa.Compiler.Template
import Mewa.Memory
import Mewa.Automaton.FlatSets
import Mewa.Automaton.Interned
import Mewa.Scope.Traversal
import Mewa.Scope.Ordered
import Mewa.Lib.FirstSets
import Mewa.Lib.Rounds
import Mewa.Automaton.FirstSets
import Mewa.Automaton.Handles
import Mewa.Automaton.Follow
import Mewa.Automaton.Walk
import Mewa.Automaton.Lr1
import Mewa.Automaton.Lalr
import Mewa.Automaton.Filling
import Mewa.Automaton.Building
import Mewa.Automaton.Quiet
import Mewa.Automaton.Accepting
import Mewa.Automaton.Decided
import Mewa.Compiler.Viable
import Mewa.Compiler.Sentences
import Mewa.Compiler.Internal
import Mewa.Compiler.Complete
import Mewa.Compiler.Refused
import Mewa.Compiler.Recognizer
import Mewa.Compiler.Bounded
import Mewa.Generated.Packed
import Mewa.Lib.Separated
import Mewa.Errors.Codes
import Mewa.Errors.Message
import Mewa.Errors.Survival
