import TreeAxes.Markup.Build
import TreeAxes.NodeSet.Membership
import TreeAxes.Step.Evaluate
import TreeAxes.Bisection
import TreeAxes.Proofs.Step.Agreement
import TreeAxes.Proofs.Step.Validity
import TreeAxes.Proofs.NodeSet.Alike
import TreeAxes.Proofs.Step.Narrowing
import TreeAxes.Proofs.NodeSet.Twins
import TreeAxes.Proofs.Step.Inputs
import TreeAxes.Proofs.Step.Session
import TreeAxes.Proofs.Step.Coherence
import TreeAxes.Proofs.Step.Override
import TreeAxes.Proofs.Numbering.Preorder
import TreeAxes.Proofs.Numbering.Tiling
import TreeAxes.Proofs.NodeSet.Joins
import TreeAxes.Proofs.NodeSet.Regions
import TreeAxes.Proofs.Store.Faithful
import TreeAxes.Proofs.Step.Walking
import TreeAxes.Proofs.Step.Origins
import TreeAxes.Proofs.Step.Kinds
import TreeAxes.Proofs.Step.AttributeTests
import TreeAxes.Proofs.Step.Raw
import TreeAxes.Proofs.NodeSet.Anchors
import TreeAxes.Proofs.Step.Inheritance
import TreeAxes.Proofs.Step.Groups
import TreeAxes.Proofs.Step.Items
import TreeAxes.Proofs.Step.Unions
import TreeAxes.Proofs.NodeSet.Assembly
import TreeAxes.Proofs.Step.Assembled
import TreeAxes.Proofs.Step.Invalidation
import TreeAxes.Proofs.Step.Reuse
import TreeAxes.Proofs.LazyNodes.Order
import TreeAxes.Proofs.LazyNodes.Membership
import TreeAxes.Proofs.Numbering.Words
import TreeAxes.Proofs.Step.Selection
import TreeAxes.Proofs.NodeSet.Merging
import TreeAxes.Proofs.NodeSet.Siblings
import TreeAxes.Proofs.NodeSet.Skipping
import TreeAxes.Proofs.Step.Failing
import TreeAxes.Proofs.Markup.Serialising
import TreeAxes.Proofs.Markup.Normalising
import TreeAxes.Proofs.Markup.References
