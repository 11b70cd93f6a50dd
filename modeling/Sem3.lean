import Sem3.LinkedList.Proofs.ListProofs
import Sem3.Memory.Proofs.LayoutProofs
import Sem3.Memory.Proofs.CoalesceProofs
import Sem3.Memory.Proofs.RemoveProofs
import Sem3.Memory.Proofs.MainProofs
import Sem3.Memory.Proofs.NodeProofs
import Sem3.Shell.Proofs.TemplateProofs
import Sem3.Shell.Proofs.EncodeProofs
import Sem3.Shell.Proofs.BackslashProofs
import Sem3.Shell.Proofs.PlumbingProofs
import Sem3.Shell.Proofs.ChildProofs
import Sem3.Shell.Proofs.LeakProofs
import Sem3.Shell.Proofs.PathProofs
import Sem3.Shell.Proofs.RedirectProofs
import Sem3.Shell.Proofs.CommandProofs
import Sem3.Shell.Proofs.ProtectProofs
import Sem3.Shell.Proofs.CursorProofs
import Sem3.Shell.Proofs.LineProofs
import Sem3.Shell.Proofs.BoundsProofs
import Sem3.Blatt06.Proofs.WaitProofs
import Sem3.Blatt06.Proofs.BufferProofs
import Sem3.Blatt06.Proofs.GrammarProofs
import Sem3.Sched.Proofs.TerminationProofs
import Sem3.Sched.Proofs.QueueProofs
import Sem3.Sched.Proofs.ShortestProofs
import Sem3.Sched.Proofs.InputProofs
import Sem3.Sched.Proofs.ReadyQueueProofs
import Sem3.Poll.Proofs.TimeoutProofs
import Sem3.Poll.Proofs.IdleProofs
import Sem3.Poll.Proofs.HexdumpProofs
import Sem3.Syncorder.Proofs.DeadlockProofs
import Sem3.Crawler.Proofs.CrawlProofs
import Sem3.SearchTree.Proofs.TreeProofs
import Sem3.Rings.Proofs.SetRingProofs
import Sem3.Quadtree.Proofs.QuadtreeProofs
import Sem3.Interp.Proofs.ScopeProofs
import Sem3.Mst.Proofs.PrimProofs
import Sem3.Rational.Proofs.EvalExprProofs
import Sem3.Knapsack.Proofs.KnapsackProofs
import Sem3.LtSeq.Proofs.LtSeqProofs
import Sem3.Interleave.Proofs.InterleaveProofs
import Sem3.LazyTree.Proofs.FindProofs
import Sem3.Par.Proofs.ParProofs
import Sem3.MsgArray.Proofs.ArrayProofs
import Sem3.MsgArray.Proofs.SessionProofs
import Sem3.Interpolation.Proofs.LagrangeProofs
import Sem3.Rings.Proofs.DenseMatrixProofs
import Sem3.Fs.Proofs.BlocksProofs
import Sem3.Fs.Proofs.ScanProofs
import Sem3.Fs.Proofs.LookupProofs
import Sem3.StudentDb.Proofs.LoadProofs
