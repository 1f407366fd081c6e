import TreeWalk.Benchmark
import TreeWalk.Main
import TreeWalk.Tree.Outline
import TreeWalk.Proofs.ByteLexing
import TreeWalk.Proofs.Conversation
import TreeWalk.Proofs.EndOfText
import TreeWalk.Proofs.Fibonacci
import TreeWalk.Proofs.FirstClass
import TreeWalk.Proofs.FunctionText
import TreeWalk.Proofs.IntegerText
import TreeWalk.Proofs.Lookup
import TreeWalk.Proofs.MaximalMunch
import TreeWalk.Proofs.Meaning
import TreeWalk.Proofs.Pieces
import TreeWalk.Proofs.Renaming
import TreeWalk.Proofs.Reordering
import TreeWalk.Proofs.Repeat
import TreeWalk.Proofs.Report
import TreeWalk.Proofs.Resync
import TreeWalk.Proofs.ReturnSignal
import TreeWalk.Proofs.Spacing
import TreeWalk.Proofs.Thrift
import TreeWalk.Proofs.Tracing
import TreeWalk.Proofs.Unclosed
import TreeWalk.Proofs.Unmentioned
import TreeWalk.Proofs.WellScoped
