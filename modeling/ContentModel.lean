import ContentModel.Atom
import ContentModel.Atom.Table
import ContentModel.Atom.Unprintable
import ContentModel.Atom.Quoted
import ContentModel.AtomMap
import ContentModel.AtomMap.Lookup
import ContentModel.Register
import ContentModel.Fault
import ContentModel.Search
import ContentModel.Occurs
import ContentModel.Model
import ContentModel.Model.Draft
import ContentModel.Fragment.Graph
import ContentModel.Fragment.Copy
import ContentModel.Fragment.Operators
import ContentModel.Fragment.OfModel
import ContentModel.Automaton.Node
import ContentModel.Automaton.Reader
import ContentModel.Automaton.Store
import ContentModel.Automaton.Subset
import ContentModel.Automaton.Union
import ContentModel.Automaton.Frozen
import ContentModel.Automaton.OfFragment
import ContentModel.Automaton.OfModel
import ContentModel.Grammar.Content
import ContentModel.Grammar.Element
import ContentModel.Grammar.Schema
import ContentModel.Grammar.Declarations
import ContentModel.Proofs.Fault
import ContentModel.Proofs.Search
import ContentModel.Proofs.Register
import ContentModel.Proofs.Fragment.Passage
import ContentModel.Proofs.Fragment.Wiring
import ContentModel.Proofs.Fragment.Operators
import ContentModel.Proofs.Fragment.Copy
import ContentModel.Proofs.Model.Language
import ContentModel.Proofs.Fragment.Repetition
import ContentModel.Proofs.Fragment.OfModel
import ContentModel.Proofs.Automaton.Growth
import ContentModel.Proofs.Automaton.Construction
import ContentModel.Proofs.Automaton.Subset
import ContentModel.Proofs.Automaton.Walk
import ContentModel.Proofs.Automaton.Closure
import ContentModel.Proofs.Automaton.OfFragment
import ContentModel.Proofs.Automaton.Reached
import ContentModel.Proofs.Automaton.OfModel
import ContentModel.Proofs.Automaton.Union
import ContentModel.Proofs.Automaton.Confined
import ContentModel.Proofs.Automaton.Frozen
import ContentModel.Proofs.Automaton.Slots
import ContentModel.Proofs.Automaton.Wirings
import ContentModel.Proofs.Model.Suffix
import ContentModel.Proofs.Model.Text
import ContentModel.Proofs.Automaton.Written
import ContentModel.Proofs.Automaton.Ownership
import ContentModel.Proofs.Automaton.Session
import ContentModel.Proofs.Grammar.Content
import ContentModel.Proofs.Grammar.Declarations
import ContentModel.Proofs.Grammar.Schema
import ContentModel.Proofs.Automaton.KeyLanguage
import ContentModel.Proofs.Search.Order
import ContentModel.Proofs.Automaton.Role
import ContentModel.Proofs.Automaton.Listing
import ContentModel.Proofs.Automaton.States
import ContentModel.Proofs.Automaton.History
import ContentModel.Proofs.Automaton.Offers
import ContentModel.Proofs.Model.Names
import ContentModel.Proofs.Grammar.Calls
import ContentModel.Proofs.Grammar.Poisoning
import ContentModel.Proofs.Grammar.References
import ContentModel.Proofs.Automaton.Asked
import ContentModel.Proofs.Automaton.Budget
import ContentModel.Proofs.Automaton.SameLanguage
import ContentModel.Proofs.Automaton.StateSets
import ContentModel.Proofs.Automaton.Twins
import ContentModel.Proofs.Fragment.Operation
import ContentModel.Proofs.Automaton.Agreement
import ContentModel.Proofs.Automaton.Rewiring
import ContentModel.Proofs.Automaton.Repetitions
import ContentModel.Proofs.Automaton.Seclusion
import ContentModel.Proofs.Grammar.Proceeding
import ContentModel.Proofs.Grammar.Publishing
import ContentModel.Proofs.Grammar.Attributes
import ContentModel.Proofs.Grammar.Tidiness
import ContentModel.Proofs.Grammar.Nodes
import ContentModel.Proofs.Automaton.Freezing
import ContentModel.Proofs.Automaton.SharedNodes
import ContentModel.Proofs.Automaton.Refusals
import ContentModel.Proofs.Automaton.ReleasedPart
import ContentModel.Proofs.Automaton.Entries
import ContentModel.Proofs.Automaton.Canonical
import ContentModel.Proofs.Automaton.Numbering
import ContentModel.Proofs.Automaton.Loops
import ContentModel.Proofs.Grammar.Mixed
import ContentModel.Proofs.Model.Shown
import ContentModel.Proofs.Model.Looks
import ContentModel.Proofs.Model.Readings
import ContentModel.Proofs.Model.Drafting
import ContentModel.Proofs.Model.Assembly
import ContentModel.Proofs.Model.Reading
import ContentModel.Proofs.Atom.Bytes
import ContentModel.Proofs.AtomMap.Halving
import ContentModel.Proofs.Automaton.Entering
import ContentModel.Proofs.Fragment.Inward
import ContentModel.Proofs.Fragment.Lowering
