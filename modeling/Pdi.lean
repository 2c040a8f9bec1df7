import Pdi.ArrayRestore
import Pdi.ArrayTemplates
import Pdi.CharArrays
import Pdi.Composites
import Pdi.CopyMemory
import Pdi.DenseExact
import Pdi.DenseNormal
import Pdi.DenseRestore
import Pdi.Dispatch
import Pdi.ExpressionAgreement
import Pdi.ExpressionClone
import Pdi.ExpressionContext
import Pdi.ExpressionDefined
import Pdi.ExpressionPrint
import Pdi.ExpressionRoom
import Pdi.Hdf5RoundTrip
import Pdi.Hdf5Warnings
import Pdi.Includes
import Pdi.Interpolation
import Pdi.LayoutTotal
import Pdi.LoggerPattern
import Pdi.Metadata
import Pdi.NetcdfRoundTrip
import Pdi.NumpyView
import Pdi.PluginTeardown
import Pdi.ReferenceRelease
import Pdi.SequenceCopy
import Pdi.SerializeCounts
import Pdi.SerializeMirror
import Pdi.SerializeNormal
import Pdi.SetValue
import Pdi.StringTools
import Pdi.StructLayout
import Pdi.SubAccess
import Pdi.TemplateResolution
import Pdi.TransactionRuns
import Pdi.TupleSlices
