import ProgrammingTasks.Foundations.TransitionSystem
import ProgrammingTasks.Foundations.CountedSteps
import ProgrammingTasks.Foundations.EditDistance
import ProgrammingTasks.Foundations.AdjacentSwaps
import ProgrammingTasks.Foundations.Matchings
import ProgrammingTasks.Foundations.TapeMachine
import ProgrammingTasks.Foundations.SyndromeDecoding
import ProgrammingTasks.Foundations.DigitalTree
import ProgrammingTasks.Foundations.AlphaBeta
import ProgrammingTasks.Foundations.DescriptorTable
import ProgrammingTasks.Foundations.LinkedList
import ProgrammingTasks.Foundations.StableQueue
import ProgrammingTasks.Foundations.GreedyWindows
import ProgrammingTasks.Foundations.DigitalLine
import ProgrammingTasks.Algorithms.Adjustments
import ProgrammingTasks.Algorithms.Switches
import ProgrammingTasks.Algorithms.Wiring
import ProgrammingTasks.Algorithms.LinkHeights
import ProgrammingTasks.TaskClusters.Events
import ProgrammingTasks.TaskClusters.Frequency
import ProgrammingTasks.TaskClusters.Clusters
import ProgrammingTasks.TaskClusters.Logs
import ProgrammingTasks.Scheduler.PriorityTable
import ProgrammingTasks.Scheduler.Operations
import ProgrammingTasks.Scheduler.WellFormed
import ProgrammingTasks.Scheduler.Conservation
import ProgrammingTasks.Scheduler.PriorityLaw
import ProgrammingTasks.Scheduler.QuantumLaw
import ProgrammingTasks.Scheduler.TableQueue
import ProgrammingTasks.Scheduler.DeviceLaw
import ProgrammingTasks.Tracer.Probes
import ProgrammingTasks.Tracer.Records
import ProgrammingTasks.Tracer.Accounting
import ProgrammingTasks.Tracer.FreedMemory
import ProgrammingTasks.Shell.Words
import ProgrammingTasks.Shell.Commands
import ProgrammingTasks.Shell.Evaluation
import ProgrammingTasks.Shell.ExitLaw
import ProgrammingTasks.Shell.RedirectRule
import ProgrammingTasks.Shell.Redirections
import ProgrammingTasks.Shell.Schedule
import ProgrammingTasks.Shell.RedirectLaw
import ProgrammingTasks.Shell.ChangeDirectory
import ProgrammingTasks.Shell.StaleDescriptor
import ProgrammingTasks.Shell.Descriptors
import ProgrammingTasks.Shell.Assignment
import ProgrammingTasks.Shell.Dispatch
import ProgrammingTasks.Shell.ReadLine
import ProgrammingTasks.Shell.WindowsWords
import ProgrammingTasks.TuringMachine.Interpreter
import ProgrammingTasks.TuringMachine.Comparison
import ProgrammingTasks.TcpServer.Hamming
import ProgrammingTasks.TcpServer.Server
import ProgrammingTasks.TcpServer.Frames
import ProgrammingTasks.TcpServer.Guessing
import ProgrammingTasks.TcpServer.Answers
import ProgrammingTasks.TcpServer.SingleBit
import ProgrammingTasks.TcpServer.Queue
import ProgrammingTasks.TcpServer.LinkEmulator
import ProgrammingTasks.TcpServer.LinkLaw
import ProgrammingTasks.TcpServer.LinkAssertion
import ProgrammingTasks.TcpServer.ReceivedLengths
import ProgrammingTasks.TcpChat.SelectServer
import ProgrammingTasks.TcpChat.Exchange
import ProgrammingTasks.TcpChat.BruteForce
import ProgrammingTasks.TcpChat.Client
import ProgrammingTasks.TcpChat.Session
import ProgrammingTasks.TcpChat.FileList
import ProgrammingTasks.Trie.Operations
import ProgrammingTasks.Trie.Labels
import ProgrammingTasks.Trie.Counting
import ProgrammingTasks.Trie.Listing
import ProgrammingTasks.Trie.Representative
import ProgrammingTasks.Trie.FailedCalls
import ProgrammingTasks.UltimateTicTacToe.Board
import ProgrammingTasks.UltimateTicTacToe.Squares
import ProgrammingTasks.UltimateTicTacToe.Play
import ProgrammingTasks.UltimateTicTacToe.ActiveSquares
import ProgrammingTasks.UltimateTicTacToe.Search
import ProgrammingTasks.UltimateTicTacToe.Undo
import ProgrammingTasks.UltimateTicTacToe.Copies
import ProgrammingTasks.UltimateTicTacToe.Restore
import ProgrammingTasks.UltimateTicTacToe.Evaluation
import ProgrammingTasks.UltimateTicTacToe.Score
import ProgrammingTasks.UltimateTicTacToe.Announcement
import ProgrammingTasks.UltimateTicTacToe.Overflow
import ProgrammingTasks.UltimateTicTacToe.OpenLines
import ProgrammingTasks.UltimateTicTacToe.Ceiling
import ProgrammingTasks.UltimateTicTacToe.Capture
import ProgrammingTasks.UltimateTicTacToe.BestMove
import ProgrammingTasks.Gfx.DrawLine
import ProgrammingTasks.Foundations.OperatorTrees
import ProgrammingTasks.Foundations.ShiftReduce
import ProgrammingTasks.Shell.Grammar
import ProgrammingTasks.Shell.ParserTables
import ProgrammingTasks.Shell.Sentences
import ProgrammingTasks.Shell.Parsing
import ProgrammingTasks.Foundations.LongestMatch
import ProgrammingTasks.Shell.ScannerTables
import ProgrammingTasks.Shell.ScannerMatch
import ProgrammingTasks.Shell.SyntaxErrors
import ProgrammingTasks.Shell.Scanner
import ProgrammingTasks.Shell.ParseLine
import ProgrammingTasks.Shell.Printing
import ProgrammingTasks.Shell.ParsedTrees
import ProgrammingTasks.Shell.Session
