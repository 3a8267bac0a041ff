import Inquiry.Answer.Page
import Inquiry.CodeList.Tables
import Inquiry.Domain.Sample
import Inquiry.Kind.Level
import Inquiry.Kind.Notation
import Inquiry.Learning.Network
import Inquiry.Main
import Inquiry.Script.Construction
import Inquiry.Script.Speech
import Inquiry.Script.Store
import Inquiry.Words.Corpus
import Inquiry.Proofs.Sql.Dedup
import Inquiry.Proofs.Sql.ListScope
import Inquiry.Proofs.Term.Restoring
import Inquiry.Proofs.Sql.ChainQuery
import Inquiry.Proofs.Words.Alignment
import Inquiry.Proofs.Answer.Titles
import Inquiry.Proofs.Session.Retelling
import Inquiry.Proofs.Sql.Joining
import Inquiry.Proofs.Answer.Literals
import Inquiry.Proofs.Request.Pivot
import Inquiry.Proofs.Request.ReadingBack
import Inquiry.Proofs.Request.Owners
import Inquiry.Proofs.Request.Asking
import Inquiry.Proofs.Request.Inserting
import Inquiry.Proofs.Request.Clues
import Inquiry.Proofs.Request.Splitting
import Inquiry.Proofs.Request.Aligning
import Inquiry.Proofs.Request.Nearest
import Inquiry.Proofs.Words.Cutting
import Inquiry.Proofs.CodeList.Leaves
import Inquiry.Proofs.Term.Matching
import Inquiry.Proofs.Words.Comparing
import Inquiry.Proofs.Kind.Levels
