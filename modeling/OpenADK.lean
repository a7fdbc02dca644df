import OpenADK.Library.Acyclic
import OpenADK.Library.RankedSystem
import OpenADK.Library.LittleEndian
import OpenADK.Library.Records
import OpenADK.Kconfig.Tristate
import OpenADK.Kconfig.Symbol
import OpenADK.Kconfig.Calc
import OpenADK.Kconfig.Check
import OpenADK.Kconfig.Semantics
import OpenADK.Kconfig.Evaluation
import OpenADK.Kconfig.OrderIndependence
import OpenADK.Kconfig.ReadConfig
import OpenADK.Kconfig.Edit
import OpenADK.Kconfig.Session
import OpenADK.Kconfig.Choices
import OpenADK.Kconfig.SelectValues
import OpenADK.Kconfig.ExprTransform
import OpenADK.Kconfig.ExprEq
import OpenADK.Kconfig.ExprReorder
import OpenADK.Kconfig.ExprDups
import OpenADK.Kconfig.Contradictions
import OpenADK.Cfgfs.Asz
import OpenADK.Cfgfs.StatusRight
import OpenADK.Cfgfs.RoundTrip
import OpenADK.Cfgfs.Container
import OpenADK.Cfgfs.Restore
import OpenADK.Nand.Complete
import OpenADK.Kconfig.Marks
import OpenADK.Kconfig.WriteConfig
import OpenADK.Mtd.Write
import OpenADK.Disk.BlockList
import OpenADK.Disk.Create
import OpenADK.Pkgmaker.Partition
import OpenADK.Pkgmaker.Depends
import OpenADK.Kconfig.ExprParse
import OpenADK.Kconfig.Include
import OpenADK.Kconfig.Lookup
import OpenADK.Kconfig.Ranges
import OpenADK.Kconfig.MenuMoves
import OpenADK.Kconfig.MenuFinalize
import OpenADK.Kconfig.Reparent
import OpenADK.Kconfig.SetTristate
import OpenADK.Cfgfs.Malformed
import OpenADK.Pkgmaker.Sortfile
import OpenADK.Pkgmaker.Expressions
import OpenADK.Depmaker.HostRule
import OpenADK.Depmaker.CompileRule
import OpenADK.Pkgrebuild.Rebuild
import OpenADK.Pkgmaker.SystemDepends
import OpenADK.Pkgmaker.Values
import OpenADK.Pkgmaker.Noninterference
import OpenADK.Pkgmaker.StrMap
import OpenADK.Kconfig.Autoconf
import OpenADK.Kconfig.Reload
import OpenADK.Kconfig.SaveLoad
import OpenADK.Kconfig.DotConfig
import OpenADK.Cfgfs.Tool
