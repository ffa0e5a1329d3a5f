import TypedHole.Action
import TypedHole.Alphabet.Lowercase
import TypedHole.Alphabet.Unprintable
import TypedHole.Alphabet.Uppercase
import TypedHole.FreshName
import TypedHole.Judgement
import TypedHole.Main
import TypedHole.Module
import TypedHole.Parser.Declaration
import TypedHole.Program.Load
import TypedHole.Program.Resolve
import TypedHole.Proofs.Applicability
import TypedHole.Proofs.AutoMoves
import TypedHole.Proofs.AutoRuns
import TypedHole.Proofs.Branch
import TypedHole.Proofs.Capture
import TypedHole.Proofs.Checked
import TypedHole.Proofs.CombinatorLaws
import TypedHole.Proofs.Continuation
import TypedHole.Proofs.Deadline
import TypedHole.Proofs.Deepening
import TypedHole.Proofs.Delimiting
import TypedHole.Proofs.EndOfInput
import TypedHole.Proofs.Evaluation
import TypedHole.Proofs.Exhaustion
import TypedHole.Proofs.Expansion
import TypedHole.Proofs.Exploration
import TypedHole.Proofs.ExpressionAcceptance
import TypedHole.Proofs.ExpressionGrammar
import TypedHole.Proofs.Filling
import TypedHole.Proofs.Finiteness
import TypedHole.Proofs.Formation
import TypedHole.Proofs.FreshNames
import TypedHole.Proofs.Growth
import TypedHole.Proofs.GuardedCalls
import TypedHole.Proofs.HoleKnowledge
import TypedHole.Proofs.HoleListing
import TypedHole.Proofs.Homomorphism
import TypedHole.Proofs.HomomorphismShape
import TypedHole.Proofs.Instantiation
import TypedHole.Proofs.Introduction
import TypedHole.Proofs.JudgementFormation
import TypedHole.Proofs.JudgementGrowth
import TypedHole.Proofs.LambdaCase
import TypedHole.Proofs.Lexemes
import TypedHole.Proofs.LexicalScope
import TypedHole.Proofs.Library
import TypedHole.Proofs.LineTable
import TypedHole.Proofs.Loading
import TypedHole.Proofs.Lockstep
import TypedHole.Proofs.Nesting
import TypedHole.Proofs.Numbering
import TypedHole.Proofs.OpenGoals
import TypedHole.Proofs.Parsing
import TypedHole.Proofs.Partition
import TypedHole.Proofs.PlainNames
import TypedHole.Proofs.Pool
import TypedHole.Proofs.Product
import TypedHole.Proofs.Ranking
import TypedHole.Proofs.Reachable
import TypedHole.Proofs.Registry
import TypedHole.Proofs.Renaming
import TypedHole.Proofs.Replies
import TypedHole.Proofs.Resolution
import TypedHole.Proofs.RuleTyping
import TypedHole.Proofs.Scanning
import TypedHole.Proofs.Scope
import TypedHole.Proofs.Semantics
import TypedHole.Proofs.SignatureFit
import TypedHole.Proofs.Simulation
import TypedHole.Proofs.SolutionLimit
import TypedHole.Proofs.Solvable
import TypedHole.Proofs.Soundness
import TypedHole.Proofs.SplitDiscipline
import TypedHole.Proofs.SplitGoals
import TypedHole.Proofs.SplitRestriction
import TypedHole.Proofs.SplitTerm
import TypedHole.Proofs.TermText
import TypedHole.Proofs.Totality
import TypedHole.Proofs.TypeGrammar
import TypedHole.Proofs.TypeText
import TypedHole.Proofs.Typing
import TypedHole.Proofs.Unfolding
import TypedHole.Proofs.Verbatim
import TypedHole.Proofs.Weakening
import TypedHole.Run
import TypedHole.Search
import TypedHole.Tactic.Auto
import TypedHole.Term
import TypedHole.Token
