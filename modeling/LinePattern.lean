import LinePattern.Symbol
import LinePattern.Symbol.Order
import LinePattern.Symbol.Display
import LinePattern.Text.Unprintable
import LinePattern.Text.Quoted
import LinePattern.Options
import LinePattern.Pattern.Token
import LinePattern.Pattern.CharClass
import LinePattern.Pattern.Tree
import LinePattern.Pattern.Reader
import LinePattern.Pattern.Assemble
import LinePattern.Nfa.Basic
import LinePattern.Nfa.Operators
import LinePattern.Nfa.Checked
import LinePattern.Nfa.SparseSet
import LinePattern.Nfa.Closure
import LinePattern.Dfa.Basic
import LinePattern.Dfa.StateSets
import LinePattern.Dfa.Subset
import LinePattern.Dfa.Walk
import LinePattern.Dfa.Scan
import LinePattern.Matcher.Verdict
import LinePattern.Matcher.Error
import LinePattern.Matcher.Single
import LinePattern.Matcher.Set
import LinePattern.Matcher.Shared
import LinePattern.Matcher.Log
import LinePattern.Outline.LineKind
import LinePattern.Outline.Report
import LinePattern.Main
import LinePattern.Proofs.Symbol.Reading
import LinePattern.Proofs.Nfa.Path
import LinePattern.Proofs.Nfa.Fragment
import LinePattern.Proofs.Nfa.Merge
import LinePattern.Proofs.Nfa.SparseSet
import LinePattern.Proofs.Nfa.Closure
import LinePattern.Proofs.Pattern.TokenTree
import LinePattern.Proofs.Pattern.Denotation
import LinePattern.Proofs.Pattern.Language
import LinePattern.Proofs.Pattern.Reader
import LinePattern.Proofs.Dfa.Subset
import LinePattern.Proofs.Dfa.Limit
import LinePattern.Proofs.Dfa.Words
import LinePattern.Proofs.Dfa.Scan
import LinePattern.Proofs.Matcher.Single
import LinePattern.Proofs.Dfa.Course
import LinePattern.Proofs.Nfa.Trace
import LinePattern.Proofs.Dfa.Place
import LinePattern.Proofs.Matcher.Set
import LinePattern.Proofs.Matcher.Winner
import LinePattern.Proofs.Nfa.Member
import LinePattern.Proofs.Dfa.Credit
import LinePattern.Proofs.Matcher.SetCaptures
import LinePattern.Proofs.Dfa.MergeSize
import LinePattern.Proofs.Matcher.FewerPatterns
import LinePattern.Proofs.Matcher.Shared
import LinePattern.Proofs.Pattern.Parse
import LinePattern.Proofs.Pattern.WithoutGroups
import LinePattern.Proofs.Pattern.Groups
import LinePattern.Proofs.Dfa.Policies
import LinePattern.Proofs.Dfa.Untagged
import LinePattern.Proofs.Nfa.Run
import LinePattern.Proofs.Matcher.SingleCaptures
import LinePattern.Proofs.Matcher.Compile
import LinePattern.Proofs.Dfa.Rewind
import LinePattern.Proofs.Dfa.Replay
import LinePattern.Proofs.Dfa.Answers
import LinePattern.Proofs.Dfa.EarlyExit
import LinePattern.Proofs.Pattern.Loops
import LinePattern.Proofs.Dfa.StepGroups
import LinePattern.Proofs.Dfa.Labels
import LinePattern.Proofs.Dfa.Numbering
import LinePattern.Proofs.Dfa.SubsetGraph
import LinePattern.Proofs.Dfa.Prefixes
import LinePattern.Proofs.Matcher.WholeGroup
import LinePattern.Proofs.Matcher.CaptureCount
import LinePattern.Proofs.Dfa.Renumbered
import LinePattern.Proofs.Matcher.Renumbered
import LinePattern.Proofs.Matcher.NegatedClass
import LinePattern.Proofs.Matcher.WholeText
import LinePattern.Proofs.Matcher.AnchoredTwice
import LinePattern.Proofs.Dfa.MergeTraces
import LinePattern.Proofs.Pattern.Faults
import LinePattern.Proofs.Matcher.FieldSlots
import LinePattern.Proofs.Matcher.Fields
import LinePattern.Proofs.Pattern.StackHeight
import LinePattern.Proofs.Pattern.ClassRanges
import LinePattern.Proofs.Pattern.ClassEscapes
import LinePattern.Proofs.Outline.LineForms
import LinePattern.Proofs.Outline.LineStages
import LinePattern.Proofs.Outline.Classification
import LinePattern.Proofs.Nfa.SparseSetUse
import LinePattern.Proofs.Nfa.ClosureReuse
import LinePattern.Proofs.Nfa.Sound
import LinePattern.Proofs.Nfa.Construction
import LinePattern.Proofs.Pattern.NestedGroups
